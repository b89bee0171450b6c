import ImportFlattening.Json.Literal

/-! # Tokens of JSON

The lexical elements of a JSON text, how each is written, and how a text is cut into them.
-/

namespace ImportFlattening.Json

inductive Token where
  | openObject
  | closeObject
  | openArray
  | closeArray
  | comma
  | colon
  | null
  | boolean (value : Bool)
  /-- A number as written. -/
  | number (literal : String)
  /-- A string, without a text if a surrogate is unpaired. -/
  | string (text : Option String)
  deriving DecidableEq, Repr

namespace Token

def write : Token → List Char
  | openObject => ['{']
  | closeObject => ['}']
  | openArray => ['[']
  | closeArray => [']']
  | comma => [',']
  | colon => [':']
  | null => ['n', 'u', 'l', 'l']
  | boolean true => ['t', 'r', 'u', 'e']
  | boolean false => ['f', 'a', 'l', 's', 'e']
  | number literal => literal.toList
  | string (some text) => writeLiteral text
  | string none => ['"', '\\', 'u', 'd', '8', '0', '0', '"']

end Token

/-- White space between tokens. -/
def isSpace (c : Char) : Bool := c = ' ' || c = '\t' || c = '\n' || c = '\r'

def scanDigits (cs : List Char) : Option (List Char × List Char) :=
  match cs.takeWhile Char.isDigit with
  | [] => none
  | digits => some (digits, cs.dropWhile Char.isDigit)

/-- The digits before the point: a single zero, or digits that start with another one. -/
def scanWhole : List Char → Option (List Char × List Char)
  | '0' :: rest => some (['0'], rest)
  | cs => scanDigits cs

def scanFraction : List Char → Option (List Char × List Char)
  | '.' :: rest => (scanDigits rest).map fun (digits, rest) => ('.' :: digits, rest)
  | cs => some ([], cs)

def scanSign : List Char → List Char × List Char
  | '+' :: rest => (['+'], rest)
  | '-' :: rest => (['-'], rest)
  | cs => ([], cs)

def scanExponent : List Char → Option (List Char × List Char)
  | [] => some ([], [])
  | c :: rest =>
    if c = 'e' || c = 'E' then
      let signed := scanSign rest
      (scanDigits signed.2).map fun (digits, rest) => (c :: signed.1 ++ digits, rest)
    else some ([], c :: rest)

def scanUnsigned (cs : List Char) : Option (List Char × List Char) := do
  let (whole, cs) ← scanWhole cs
  let (fraction, cs) ← scanFraction cs
  let (exponent, cs) ← scanExponent cs
  return (whole ++ fraction ++ exponent, cs)

/-- The first token of a text that starts with one. -/
def nextToken : List Char → Option (Token × List Char)
  | '{' :: rest => some (.openObject, rest)
  | '}' :: rest => some (.closeObject, rest)
  | '[' :: rest => some (.openArray, rest)
  | ']' :: rest => some (.closeArray, rest)
  | ',' :: rest => some (.comma, rest)
  | ':' :: rest => some (.colon, rest)
  | 'n' :: 'u' :: 'l' :: 'l' :: rest => some (.null, rest)
  | 't' :: 'r' :: 'u' :: 'e' :: rest => some (.boolean true, rest)
  | 'f' :: 'a' :: 'l' :: 's' :: 'e' :: rest => some (.boolean false, rest)
  | '"' :: rest =>
    (scanLiteral [] rest).map fun (codes, rest) => (.string (textOfCodes codes), rest)
  | '-' :: rest =>
    (scanUnsigned rest).map fun (number, rest) => (.number (String.ofList ('-' :: number)), rest)
  | cs => (scanUnsigned cs).map fun (number, rest) => (.number (String.ofList number), rest)

theorem length_dropWhile_le (p : Char → Bool) (cs : List Char) :
    (cs.dropWhile p).length ≤ cs.length :=
  (List.dropWhile_suffix p).length_le

theorem length_of_scanDigits {cs digits rest : List Char}
    (h : scanDigits cs = some (digits, rest)) : rest.length < cs.length := by
  unfold scanDigits at h
  split at h
  · simp at h
  · rename_i nonempty
    cases h
    cases cs with
    | nil => simp at nonempty
    | cons c cs =>
      by_cases digit : c.isDigit
      · have := length_dropWhile_le Char.isDigit cs
        simp [digit]
        omega
      · simp [digit] at nonempty

theorem length_of_scanWhole {cs digits rest : List Char}
    (h : scanWhole cs = some (digits, rest)) : rest.length < cs.length := by
  unfold scanWhole at h
  split at h
  · cases h
    simp
  · exact length_of_scanDigits h

theorem length_of_scanFraction {cs digits rest : List Char}
    (h : scanFraction cs = some (digits, rest)) : rest.length ≤ cs.length := by
  unfold scanFraction at h
  split at h
  · obtain ⟨⟨_, _⟩, scanned, eq⟩ := Option.map_eq_some_iff.mp h
    have := length_of_scanDigits scanned
    cases eq
    simp
    omega
  · cases h
    exact Nat.le_refl _

theorem length_of_scanSign (cs : List Char) : (scanSign cs).2.length ≤ cs.length := by
  unfold scanSign
  split <;> simp

theorem length_of_scanExponent {cs digits rest : List Char}
    (h : scanExponent cs = some (digits, rest)) : rest.length ≤ cs.length := by
  unfold scanExponent at h
  split at h
  · cases h
    exact Nat.le_refl _
  · rename_i c cs
    split at h
    · obtain ⟨⟨_, _⟩, scanned, eq⟩ := Option.map_eq_some_iff.mp h
      have := length_of_scanDigits scanned
      have := length_of_scanSign cs
      cases eq
      simp only [List.length_cons]
      omega
    · cases h
      exact Nat.le_refl _

theorem length_of_scanUnsigned {cs number rest : List Char}
    (h : scanUnsigned cs = some (number, rest)) : rest.length < cs.length := by
  simp only [scanUnsigned, Option.bind_eq_bind, Option.bind_eq_some_iff, Option.pure_def,
    Option.some.injEq, Prod.mk.injEq, Prod.exists] at h
  obtain ⟨_, _, whole, _, _, fraction, _, _, exponent, -, rfl⟩ := h
  have := length_of_scanWhole whole
  have := length_of_scanFraction fraction
  have := length_of_scanExponent exponent
  omega

/-- A token takes up at least one character. -/
theorem length_of_nextToken {cs rest : List Char} {token : Token}
    (h : nextToken cs = some (token, rest)) : rest.length < cs.length := by
  unfold nextToken at h
  split at h
  case h_10 =>
    obtain ⟨⟨_, _⟩, scanned, eq⟩ := Option.map_eq_some_iff.mp h
    have := length_of_scanLiteral scanned
    cases eq
    simp
    omega
  case h_11 =>
    obtain ⟨⟨_, _⟩, scanned, eq⟩ := Option.map_eq_some_iff.mp h
    have := length_of_scanUnsigned scanned
    cases eq
    simp
    omega
  case h_12 =>
    obtain ⟨⟨_, _⟩, scanned, eq⟩ := Option.map_eq_some_iff.mp h
    cases eq
    exact length_of_scanUnsigned scanned
  all_goals
    cases h
    simp
    try omega

/-- Cut the characters into tokens, behind those of `done`, which is in reverse. -/
def lexFrom (done : List Token) (cs : List Char) : Option (List Token) :=
  match cs with
  | [] => some done.reverse
  | c :: rest =>
    if isSpace c then lexFrom done rest
    else
      match _h : nextToken (c :: rest) with
      | none => none
      | some (token, rest') => lexFrom (token :: done) rest'
termination_by cs.length
decreasing_by
  · simp
  · exact length_of_nextToken _h

def lex (cs : List Char) : Option (List Token) := lexFrom [] cs

end ImportFlattening.Json
