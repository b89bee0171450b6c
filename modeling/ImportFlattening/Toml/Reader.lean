/-! # Readers

A reader takes a value off the front of a text, or fails and takes nothing. Choices between readers
are tried in order from the same place.
-/

namespace ImportFlattening.Toml

abbrev Reader := StateT (List Char) Option

namespace Reader

variable {α β : Type}

/-- One character of a class. -/
def char (p : Char → Bool) : Reader Char
  | c :: cs => if p c then some (c, cs) else none
  | [] => none

def exactly (word : List Char) : Reader Unit := fun cs =>
  if word.isPrefixOf cs then some ((), cs.drop word.length) else none

/-- As many characters of a class as there are. -/
def chars (p : Char → Bool) : Reader (List Char) := fun cs =>
  some (cs.takeWhile p, cs.dropWhile p)

/-- Whether the text goes on with the given characters, which are left in place. -/
def ahead (word : List Char) : Reader Bool := fun cs => some (word.isPrefixOf cs, cs)

def atEnd : Reader Unit
  | [] => some ((), [])
  | _ :: _ => none

/-- What `r` reads, up to `limit` times in a row. -/
def upTo (r : Reader α) : (limit : Nat) → Reader (List α)
  | 0 => pure []
  | limit + 1 => fun cs =>
    match r cs with
    | none => some ([], cs)
    | some (a, rest) => (upTo r limit rest).map fun (as, rest) => (a :: as, rest)

/-- What `r` reads, as often in a row as it can. A reader that takes at least one character at a
time succeeds no more often than there are characters. -/
def many (r : Reader α) : Reader (List α) := fun cs => upTo r cs.length cs

/-- One or more, with separators between them. -/
def sepBy1 (r : Reader α) (sep : Reader β) : Reader (List α) := do
  let first ← r
  let rest ← many (sep *> r)
  return first :: rest

/-- Any number, with separators between them. -/
def sepBy (r : Reader α) (sep : Reader β) : Reader (List α) := sepBy1 r sep <|> pure []

/-- The characters that `r` takes. -/
def spanned (r : Reader α) : Reader (List Char) := fun cs =>
  (r cs).map fun (_, rest) => (cs.take (cs.length - rest.length), rest)

end Reader

/-- White space within a line. -/
def isGap (c : Char) : Bool := c = ' ' || c = '\t'

/-- The characters that may stand in comments and, unescaped, in strings. -/
def isPlain (c : Char) : Bool := c = '\t' || (0x20 ≤ c.toNat && c.toNat ≠ 0x7F)

def gap : Reader Unit := discard (Reader.chars isGap)

def newline : Reader Unit := Reader.exactly ['\n'] <|> Reader.exactly ['\r', '\n']

def comment : Reader Unit := Reader.exactly ['#'] *> discard (Reader.chars isPlain)

/-- The rest of a line: a comment at most. -/
def lineEnd : Reader Unit := do
  gap
  discard (optional comment)
  newline <|> Reader.atEnd

/-- Anything between the items of an array: white space, comments and line ends. -/
def filler : Reader Unit :=
  discard (Reader.many (discard (Reader.char isGap) <|> newline <|> comment))

end ImportFlattening.Toml
