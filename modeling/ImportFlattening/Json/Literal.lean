/-! # String literals of JSON

Between its quotes a literal is a sequence of code numbers, one for each character or escape. The
codes make a text when every surrogate among them stands in a pair of a high and a low one.
-/

namespace ImportFlattening.Json

def isHighSurrogate (code : Nat) : Bool := 0xD800 ≤ code && code ≤ 0xDBFF

def isLowSurrogate (code : Nat) : Bool := 0xDC00 ≤ code && code ≤ 0xDFFF

/-- The character that a pair of surrogates stands for. -/
def pairValue (high low : Nat) : Char :=
  Char.ofNat (0x10000 + (high - 0xD800) * 0x400 + (low - 0xDC00))

/-- Put the characters of the codes behind those of `done`, which is in reverse. -/
def charsFrom (done : List Char) : List Nat → Option (List Char)
  | [] => some done.reverse
  | [code] =>
    if isHighSurrogate code || isLowSurrogate code then none
    else some (Char.ofNat code :: done).reverse
  | code :: next :: rest =>
    if isHighSurrogate code then
      if isLowSurrogate next then charsFrom (pairValue code next :: done) rest else none
    else if isLowSurrogate code then none
    else charsFrom (Char.ofNat code :: done) (next :: rest)

def textOfCodes (codes : List Nat) : Option String :=
  (charsFrom [] codes).map String.ofList

/-- The value of a hexadecimal digit in either case. -/
def hexValue (c : Char) : Option Nat :=
  if '0' ≤ c ∧ c ≤ '9' then some (c.toNat - 48)
  else if 'a' ≤ c ∧ c ≤ 'f' then some (c.toNat - 87)
  else if 'A' ≤ c ∧ c ≤ 'F' then some (c.toNat - 55)
  else none

/-- The code of a `u` escape. -/
def hexCode (a b c d : Char) : Option Nat := do
  return (((← hexValue a) * 16 + (← hexValue b)) * 16 + (← hexValue c)) * 16 + (← hexValue d)

/-- The character that a letter stands for after a backslash. -/
def shortEscape : Char → Option Char
  | '"' => some '"'
  | '\\' => some '\\'
  | '/' => some '/'
  | 'b' => some '\x08'
  | 'f' => some '\x0c'
  | 'n' => some '\n'
  | 'r' => some '\r'
  | 't' => some '\t'
  | _ => none

/-- Read the rest of a literal up to its closing quote, behind the codes of `done`, which is in
reverse. Control characters must be escaped. -/
def scanLiteral (done : List Nat) : List Char → Option (List Nat × List Char)
  | [] => none
  | '"' :: rest => some (done.reverse, rest)
  | '\\' :: 'u' :: a :: b :: c :: d :: rest =>
    match hexCode a b c d with
    | none => none
    | some code => scanLiteral (code :: done) rest
  | '\\' :: e :: rest =>
    match shortEscape e with
    | none => none
    | some c => scanLiteral (c.toNat :: done) rest
  | c :: rest =>
    if c.toNat < 0x20 || c = '\\' then none else scanLiteral (c.toNat :: done) rest

theorem length_of_scanLiteral {done codes : List Nat} {cs rest : List Char}
    (h : scanLiteral done cs = some (codes, rest)) : rest.length < cs.length := by
  fun_induction scanLiteral done cs <;> simp_all <;> omega

def hexDigit (n : Nat) : Char := "0123456789abcdef".toList.getD n '0'

/-- A character as it is written between quotes. -/
def escapeChar (c : Char) : List Char :=
  if c = '"' then ['\\', '"']
  else if c = '\\' then ['\\', '\\']
  else if c = '\x08' then ['\\', 'b']
  else if c = '\x0c' then ['\\', 'f']
  else if c = '\n' then ['\\', 'n']
  else if c = '\r' then ['\\', 'r']
  else if c = '\t' then ['\\', 't']
  else if c.toNat < 0x20 then
    ['\\', 'u', '0', '0', hexDigit (c.toNat / 16), hexDigit (c.toNat % 16)]
  else [c]

def writeLiteral (text : String) : List Char :=
  '"' :: text.toList.flatMap escapeChar ++ ['"']

end ImportFlattening.Json
