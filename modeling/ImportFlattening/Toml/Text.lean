import ImportFlattening.Json.Literal
import ImportFlattening.Toml.Reader

/-! # Strings and keys of TOML

A string is basic, with escapes, or literal, without; either kind may run over several lines.
-/

namespace ImportFlattening.Toml

open Reader

/-- The character with the given code, unless the code is a surrogate or too great. -/
def scalar (code : Nat) : Option Char := if code.isValidChar then some (Char.ofNat code) else none

/-- As many hexadecimal digits as `count` says. -/
def hexNumber : (count : Nat) → Reader Nat
  | 0 => pure 0
  | count + 1 => do
    let digit ← char fun c => (Json.hexValue c).isSome
    let rest ← hexNumber count
    return (Json.hexValue digit).getD 0 * 16 ^ count + rest

/-- The character that a letter stands for after a backslash. -/
def shortEscape : Char → Option Char
  | 'b' => some '\x08'
  | 'f' => some '\x0c'
  | 'n' => some '\n'
  | 'r' => some '\r'
  | 't' => some '\t'
  | '\\' => some '\\'
  | '"' => some '"'
  | _ => none

/-- A backslash and what follows it. -/
def escape : Reader Char := do
  exactly ['\\']
  match ← char fun _ => true with
  | 'u' => scalar (← hexNumber 4)
  | 'U' => scalar (← hexNumber 8)
  | c => shortEscape c

def basicString : Reader String := do
  exactly ['"']
  let cs ← many (char (fun c => isPlain c && c ≠ '"' && c ≠ '\\') <|> escape)
  exactly ['"']
  return String.ofList cs

def literalString : Reader String := do
  exactly ['\'']
  let cs ← chars fun c => isPlain c && c ≠ '\''
  exactly ['\'']
  return String.ofList cs

/-- One or two quotes inside a string of several lines, where a third quote would end it. -/
def innerQuotes (quote : Char) : Reader (List Char) := do
  let quotes ← (exactly [quote, quote] *> pure [quote, quote]) <|> (exactly [quote] *> pure [quote])
  if ← ahead [quote] then failure
  return quotes

/-- The end of a string of several lines. Up to two quotes before it belong to the string. -/
def closingQuotes (quote : Char) : Reader (List Char) :=
  (exactly (List.replicate 5 quote) *> pure [quote, quote]) <|>
  (exactly (List.replicate 4 quote) *> pure [quote]) <|>
  (exactly (List.replicate 3 quote) *> pure [])

/-- A backslash at the end of a line, which hides the line end and all white space after it. -/
def lineContinuation : Reader (List Char) := do
  exactly ['\\']
  gap
  newline
  discard (many (discard (char isGap) <|> newline))
  return []

/-- A string between three quotes on either side. A line end right after the opening quotes is not
part of it, and any other is a single line feed. -/
def multilineString (quote : Char) (piece : Reader (List Char)) : Reader String := do
  exactly (List.replicate 3 quote)
  discard (optional newline)
  let pieces ← many (piece <|> (newline *> pure ['\n']) <|> innerQuotes quote)
  let last ← closingQuotes quote
  return String.ofList (pieces.flatten ++ last)

def multilineBasic : Reader String :=
  multilineString '"' <|
    (List.singleton <$> char fun c => isPlain c && c ≠ '"' && c ≠ '\\') <|>
    lineContinuation <|> (List.singleton <$> escape)

def multilineLiteral : Reader String :=
  multilineString '\'' (List.singleton <$> char fun c => isPlain c && c ≠ '\'')

def string : Reader String := multilineBasic <|> basicString <|> multilineLiteral <|> literalString

def isBareKeyChar (c : Char) : Bool := c.isAlphanum || c = '_' || c = '-'

def bareKey : Reader String := do
  let first ← char isBareKeyChar
  let rest ← chars isBareKeyChar
  return String.ofList (first :: rest)

def simpleKey : Reader String := bareKey <|> basicString <|> literalString

/-- The number of levels beyond which keys and values do not nest. -/
def depthLimit : Nat := 80

/-- Keys separated by points, each with white space around it. -/
def keyPath : Reader (List String) := do
  let keys ← sepBy1 (gap *> simpleKey <* gap) (exactly ['.'])
  if depthLimit ≤ keys.length then failure
  return keys

end ImportFlattening.Toml
