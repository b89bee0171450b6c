import ImportFlattening.Proofs.JsonText
import Mathlib.Data.List.Chain

/-! # The grammar of JSON texts

How a document may be spelled, said without the reader: white space stands between any two tokens,
a character of a literal stands for itself or is escaped in one of several ways, and a number is a
numeral. Every text that spells a document is read as that document (`Json.parse_of_spells`), however
deep it is. Only numerals do not end by themselves, and a document sets each of them off.
-/

namespace ImportFlattening

/-- The document can be written in JSON as it is: no moment is in it. -/
inductive Document.IsJson : Document → Prop where
  | null : IsJson .null
  | boolean (value : Bool) : IsJson (.boolean value)
  | number (literal : String) : IsJson (.number literal)
  | string (text : Option String) : IsJson (.string text)
  | array {items : List Document} (all : ∀ d ∈ items, IsJson d) : IsJson (.array items)
  | object {members : List (Option String × Document)} (all : ∀ m ∈ members, IsJson m.2) :
      IsJson (.object members)

namespace Document

attribute [simp] IsJson.null IsJson.boolean IsJson.number IsJson.string

@[simp] theorem isJson_array {items : List Document} :
    IsJson (.array items) ↔ ∀ d ∈ items, IsJson d := by
  constructor
  · intro isJson
    cases isJson with
    | array all => exact all
  · exact .array

@[simp] theorem isJson_object {members : List (Option String × Document)} :
    IsJson (.object members) ↔ ∀ m ∈ members, IsJson m.2 := by
  constructor
  · intro isJson
    cases isJson with
    | object all => exact all
  · exact .object

end Document

namespace Json

def IsDigits (cs : List Char) : Prop := cs ≠ [] ∧ ∀ c ∈ cs, c.isDigit

/-- What stands before the point of a numeral: no zero leads other digits. -/
inductive Whole : List Char → Prop where
  | zero : Whole ['0']
  | digits {cs : List Char} (all : IsDigits cs) (first : cs.head? ≠ some '0') : Whole cs

inductive Fraction : List Char → Prop where
  | absent : Fraction []
  | present {digits : List Char} (all : IsDigits digits) : Fraction ('.' :: digits)

inductive Exponent : List Char → Prop where
  | absent : Exponent []
  | present {mark : Char} {sign digits : List Char} (marked : mark = 'e' ∨ mark = 'E')
      (signed : sign = [] ∨ sign = ['+'] ∨ sign = ['-']) (all : IsDigits digits) :
      Exponent (mark :: sign ++ digits)

inductive Unsigned : List Char → Prop where
  | mk {whole fraction exponent : List Char} (isWhole : Whole whole)
      (isFraction : Fraction fraction) (isExponent : Exponent exponent) :
      Unsigned (whole ++ fraction ++ exponent)

inductive Numeral : List Char → Prop where
  | positive {cs : List Char} (unsigned : Unsigned cs) : Numeral cs
  | negative {cs : List Char} (unsigned : Unsigned cs) : Numeral ('-' :: cs)

/-- The characters that may stand between the quotes of a literal with these codes. -/
inductive Quoted : List Nat → List Char → Prop where
  | nil : Quoted [] []
  | plain {c : Char} {codes : List Nat} {cs : List Char} (unescaped : c ≠ '"' ∧ c ≠ '\\')
      (visible : ¬ c.toNat < 0x20) (rest : Quoted codes cs) : Quoted (c.toNat :: codes) (c :: cs)
  | short {e c : Char} {codes : List Nat} {cs : List Char} (escape : shortEscape e = some c)
      (rest : Quoted codes cs) : Quoted (c.toNat :: codes) ('\\' :: e :: cs)
  | hex {a b c d : Char} {code : Nat} {codes : List Nat} {cs : List Char}
      (escape : hexCode a b c d = some code) (rest : Quoted codes cs) :
      Quoted (code :: codes) ('\\' :: 'u' :: a :: b :: c :: d :: cs)

/-- The token is always spelled in the same way. -/
def Token.IsFixed : Token → Prop
  | number _ => False
  | string _ => False
  | _ => True

inductive Lexeme : Token → List Char → Prop where
  | fixed {token : Token} (isFixed : token.IsFixed) : Lexeme token token.write
  | number {cs : List Char} (numeral : Numeral cs) : Lexeme (.number (String.ofList cs)) cs
  | string {codes : List Nat} {cs : List Char} (quoted : Quoted codes cs) :
      Lexeme (.string (textOfCodes codes)) ('"' :: cs ++ ['"'])

/-- The characters spell the tokens, with white space anywhere between them. -/
inductive Spelled : List Token → List Char → Prop where
  | nil : Spelled [] []
  | space {c : Char} {ts : List Token} {cs : List Char} (isSpace : isSpace c)
      (rest : Spelled ts cs) : Spelled ts (c :: cs)
  | token {t : Token} {lexeme : List Char} {ts : List Token} {cs : List Char}
      (first : Lexeme t lexeme) (rest : Spelled ts cs) : Spelled (t :: ts) (lexeme ++ cs)

/-- The text is a way to write the document. -/
structure Spells (text : String) (d : Document) : Prop where
  isJson : d.IsJson
  spelled : Spelled (tokens d) text.toList

section Numerals

/-- The characters that could lengthen a numeral. -/
def lengthens (c : Char) : Bool := c.isDigit || c = '.' || c = 'e' || c = 'E'

/-- No character that passes the test comes next. -/
def Stops (test : Char → Bool) (rest : List Char) : Prop := ∀ c ∈ rest.head?, test c = false

theorem Stops.mono {test test' : Char → Bool} {rest : List Char} (stops : Stops test rest)
    (weaker : ∀ c, test c = false → test' c = false) : Stops test' rest :=
  fun c first => weaker c (stops c first)

theorem not_digit_of_not_lengthens {c : Char} (stops : lengthens c = false) :
    c.isDigit = false := by
  simp only [lengthens, Bool.or_eq_false_iff] at stops
  exact stops.1.1.1

theorem scanDigits_append {digits rest : List Char} (all : IsDigits digits)
    (stops : Stops Char.isDigit rest) : scanDigits (digits ++ rest) = some (digits, rest) := by
  obtain ⟨nonempty, all⟩ := all
  have taken : rest.takeWhile Char.isDigit = [] ∧ rest.dropWhile Char.isDigit = rest := by
    cases rest with
    | nil => exact ⟨rfl, rfl⟩
    | cons c rest => simp [stops c rfl]
  rw [scanDigits, List.takeWhile_append_of_pos all, List.dropWhile_append_of_pos all, taken.1,
    taken.2, List.append_nil]
  split
  case h_1 empty => exact absurd rfl nonempty
  case h_2 => rfl

theorem scanWhole_append {whole rest : List Char} (isWhole : Whole whole)
    (stops : Stops Char.isDigit rest) : scanWhole (whole ++ rest) = some (whole, rest) := by
  cases isWhole with
  | zero => rfl
  | digits all first =>
      cases whole with
      | nil => exact absurd rfl all.1
      | cons c cs =>
          have other : c ≠ '0' := fun zero => first (congrArg some zero)
          rw [← scanDigits_append all stops]
          simp [scanWhole, other]

theorem scanFraction_append {fraction rest : List Char} (isFraction : Fraction fraction)
    (stops : Stops (fun c => c.isDigit || c = '.') rest) :
    scanFraction (fraction ++ rest) = some (fraction, rest) := by
  cases isFraction with
  | absent =>
      cases rest with
      | nil => rfl
      | cons c rest =>
          have other : c ≠ '.' := by
            rintro rfl
            cases stops '.' rfl
          simp [scanFraction, other]
  | present all =>
      have digits : Stops Char.isDigit rest := stops.mono fun c => by
        intro stop
        exact (Bool.or_eq_false_iff.mp stop).1
      simp [scanFraction, scanDigits_append all digits]

theorem scanSign_append {sign digits rest : List Char}
    (signed : sign = [] ∨ sign = ['+'] ∨ sign = ['-']) (all : IsDigits digits) :
    scanSign (sign ++ (digits ++ rest)) = (sign, digits ++ rest) := by
  rcases signed with rfl | rfl | rfl
  · obtain ⟨nonempty, all⟩ := all
    cases digits with
    | nil => exact absurd rfl nonempty
    | cons c cs =>
        have digit := all c (by simp)
        have plus : c ≠ '+' := by
          rintro rfl
          cases digit
        have minus : c ≠ '-' := by
          rintro rfl
          cases digit
        simp [scanSign, plus, minus]
  · rfl
  · rfl

theorem scanExponent_append {exponent rest : List Char} (isExponent : Exponent exponent)
    (stops : Stops lengthens rest) :
    scanExponent (exponent ++ rest) = some (exponent, rest) := by
  cases isExponent with
  | absent =>
      cases rest with
      | nil => rfl
      | cons c rest =>
          have stop := stops c rfl
          simp only [lengthens, Bool.or_eq_false_iff, decide_eq_false_iff_not] at stop
          simp [scanExponent, stop]
  | @present mark sign digits marked signed all =>
      have digits := scanDigits_append all (stops.mono fun c => not_digit_of_not_lengthens)
      rw [List.cons_append, List.cons_append, scanExponent, if_pos (by simpa using marked)]
      simp [scanSign_append signed all, digits]

theorem Exponent.stops_append {exponent rest : List Char} (isExponent : Exponent exponent)
    (stops : Stops lengthens rest) :
    Stops (fun c => c.isDigit || c = '.') (exponent ++ rest) := by
  cases isExponent with
  | absent =>
      apply stops.mono
      intro c stop
      simp only [lengthens, Bool.or_eq_false_iff] at stop
      exact Bool.or_eq_false_iff.mpr stop.1.1
  | present marked _ _ =>
      intro c first
      obtain rfl : _ = c := Option.some.inj first
      rcases marked with rfl | rfl <;> rfl

theorem Fraction.stops_append {fraction rest : List Char} (isFraction : Fraction fraction)
    (stops : Stops Char.isDigit rest) : Stops Char.isDigit (fraction ++ rest) := by
  cases isFraction with
  | absent => exact stops
  | present _ =>
      intro c first
      obtain rfl : '.' = c := Option.some.inj first
      rfl

theorem scanUnsigned_append {cs rest : List Char} (unsigned : Unsigned cs)
    (stops : Stops lengthens rest) : scanUnsigned (cs ++ rest) = some (cs, rest) := by
  obtain ⟨isWhole, isFraction, isExponent⟩ := unsigned
  have afterFraction := isExponent.stops_append stops
  have afterWhole := isFraction.stops_append
    (afterFraction.mono fun c stop => (Bool.or_eq_false_iff.mp stop).1)
  simp only [scanUnsigned, List.append_assoc, scanWhole_append isWhole afterWhole,
    scanFraction_append isFraction afterFraction, scanExponent_append isExponent stops,
    Option.bind_eq_bind, Option.bind_some, Option.pure_def]

theorem Unsigned.head_digit {cs : List Char} (unsigned : Unsigned cs) :
    ∃ c rest, cs = c :: rest ∧ c.isDigit := by
  obtain @⟨whole, _, _, isWhole, -, -⟩ := unsigned
  cases isWhole with
  | zero => exact ⟨'0', _, rfl, rfl⟩
  | digits all _ =>
      obtain ⟨nonempty, all⟩ := all
      cases whole with
      | nil => exact absurd rfl nonempty
      | cons c whole => exact ⟨c, _, rfl, all c (by simp)⟩

theorem nextToken_digit {c : Char} (digit : c.isDigit) (rest : List Char) :
    nextToken (c :: rest) = (scanUnsigned (c :: rest)).map fun (number, rest) =>
      (.number (String.ofList number), rest) := by
  unfold nextToken
  split
  case h_12 => rfl
  all_goals
    rename_i start
    cases start
    cases digit

theorem nextToken_numeral {cs rest : List Char} (numeral : Numeral cs)
    (stops : Stops lengthens rest) :
    nextToken (cs ++ rest) = some (.number (String.ofList cs), rest) := by
  cases numeral with
  | positive unsigned =>
      have scanned := scanUnsigned_append unsigned stops
      obtain ⟨c, tail, rfl, digit⟩ := unsigned.head_digit
      rw [List.cons_append] at scanned ⊢
      rw [nextToken_digit digit, scanned]
      rfl
  | negative unsigned => simp [nextToken, scanUnsigned_append unsigned stops]

end Numerals

section Lexemes

theorem scanLiteral_quoted {codes : List Nat} {cs : List Char} (quoted : Quoted codes cs)
    (done : List Nat) (rest : List Char) :
    scanLiteral done (cs ++ '"' :: rest) = some (done.reverse ++ codes, rest) := by
  induction quoted generalizing done with
  | nil => simp [scanLiteral]
  | plain unescaped visible _ ih =>
      rw [List.cons_append, scanLiteral_plain unescaped visible, ih]
      simp
  | short escape _ ih =>
      rw [List.cons_append, List.cons_append, scanLiteral_short escape, ih]
      simp
  | hex escape _ ih =>
      simp only [List.cons_append]
      rw [scanLiteral_hex escape, ih]
      simp

/-- A number in front of this token is at its end. -/
def Token.separates : Token → Bool
  | comma | colon | closeArray | closeObject => true
  | _ => false

/-- What may follow what: after a number comes a token that separates. -/
def SetsOff (t next : Token) : Prop := (∃ literal, t = .number literal) → next.separates

theorem nextToken_lexeme {t : Token} {lexeme rest : List Char} (spelling : Lexeme t lexeme)
    (stops : (∃ literal, t = .number literal) → Stops lengthens rest) :
    nextToken (lexeme ++ rest) = some (t, rest) := by
  cases spelling with
  | fixed isFixed =>
      cases t with
      | number _ | string _ => cases isFixed
      | boolean value => cases value <;> rfl
      | _ => rfl
  | number numeral => exact nextToken_numeral numeral (stops ⟨_, rfl⟩)
  | string quoted => simp [nextToken, scanLiteral_quoted quoted]

-- White space and the tokens that separate are no part of a numeral.
theorem Spelled.stops {ts : List Token} {cs : List Char} (spelled : Spelled ts cs)
    (separated : ∀ t ∈ ts.head?, t.separates) : Stops lengthens cs := by
  cases spelled with
  | nil =>
      intro c first
      cases first
  | space isSpace _ =>
      intro c first
      obtain rfl : _ = c := Option.some.inj first
      simp only [Json.isSpace, Bool.or_eq_true, decide_eq_true_eq] at isSpace
      rcases isSpace with ((rfl | rfl) | rfl) | rfl <;> rfl
  | @token t _ _ _ spelling _ =>
      have separates : t.separates := separated t rfl
      cases spelling with
      | fixed _ =>
          intro c first
          cases t with
          | comma | colon | closeArray | closeObject =>
              obtain rfl := Option.some.inj first
              rfl
          | _ => cases separates
      | number _ | string _ => cases separates

theorem lexFrom_spelled {ts : List Token} {cs : List Char} (spelled : Spelled ts cs)
    (chain : ts.IsChain SetsOff) (done : List Token) :
    lexFrom done cs = some (done.reverse ++ ts) := by
  induction spelled generalizing done with
  | nil => simp [lexFrom]
  | space isSpace _ ih => rw [lexFrom, if_pos isSpace, ih chain]
  | @token t lexeme ts cs spelling rest ih =>
      have stops : (∃ literal, t = .number literal) → Stops lengthens cs := by
        intro isNumber
        apply rest.stops
        intro next first
        exact (List.isChain_cons.mp chain).1 next first isNumber
      rw [lexFrom_token (nextToken_lexeme spelling stops), ih (List.isChain_cons.mp chain).2]
      simp

end Lexemes

section Documents

theorem isChain_cons_of_not_number {t : Token} {ts : List Token}
    (other : ∀ literal, t ≠ .number literal) (chain : ts.IsChain SetsOff) :
    (t :: ts).IsChain SetsOff := by
  refine List.isChain_cons.mpr ⟨?_, chain⟩
  rintro next - ⟨literal, rfl⟩
  exact absurd rfl (other literal)

theorem isChain_append_of_separates {front ts : List Token} {t : Token} (separates : t.separates)
    (left : front.IsChain SetsOff) (right : (t :: ts).IsChain SetsOff) :
    (front ++ t :: ts).IsChain SetsOff := by
  refine List.isChain_append.mpr ⟨left, right, ?_⟩
  rintro last - next first -
  obtain rfl : t = next := Option.some.inj first
  exact separates

theorem isChain_items {items : List Document} (all : ∀ d ∈ items, (tokens d).IsChain SetsOff) :
    (itemTokens items ++ [Token.closeArray]).IsChain SetsOff := by
  induction items with
  | nil => exact List.isChain_singleton _
  | cons item rest ih =>
      obtain ⟨first, others⟩ := List.forall_mem_cons.mp all
      cases rest with
      | nil => exact isChain_append_of_separates rfl first (List.isChain_singleton _)
      | cons next rest =>
          rw [itemTokens, List.append_assoc, List.cons_append]
          exact isChain_append_of_separates rfl first
            (isChain_cons_of_not_number (by simp) (ih others))

theorem isChain_members {members : List (Option String × Document)}
    (all : ∀ m ∈ members, (tokens m.2).IsChain SetsOff) :
    (memberTokens members ++ [Token.closeObject]).IsChain SetsOff := by
  have named {name : Option String} {ts : List Token} (chain : ts.IsChain SetsOff) :
      (Token.string name :: .colon :: ts).IsChain SetsOff :=
    isChain_cons_of_not_number (by simp) (isChain_cons_of_not_number (by simp) chain)
  induction members with
  | nil => exact List.isChain_singleton _
  | cons m rest ih =>
      obtain ⟨first, others⟩ := List.forall_mem_cons.mp all
      cases rest with
      | nil => exact isChain_append_of_separates rfl (named first) (List.isChain_singleton _)
      | cons next rest =>
          rw [memberTokens, List.append_assoc, List.cons_append]
          exact isChain_append_of_separates rfl (named first)
            (isChain_cons_of_not_number (by simp) (ih others))

theorem isChain_tokens {d : Document} (isJson : d.IsJson) : (tokens d).IsChain SetsOff := by
  induction isJson with
  | null | boolean | number | string => exact List.isChain_singleton _
  | array _ ih => exact isChain_cons_of_not_number (by simp) (isChain_items ih)
  | object _ ih => exact isChain_cons_of_not_number (by simp) (isChain_members ih)

theorem readsBack_of_isJson {d : Document} (isJson : d.IsJson) : ReadsBack d := by
  induction isJson with
  | null | boolean | number | string => exact fun stack => rfl
  | array _ ih => exact readsBack_array ih
  | object _ ih => exact readsBack_object ih

theorem parse_of_spells {text : String} {d : Document} (spells : Spells text d) :
    parse text = some d := by
  have lexed : lex text.toList = some (tokens d) :=
    lexFrom_spelled spells.spelled (isChain_tokens spells.isJson) []
  have built : ofTokens (tokens d) = some d := by
    simp only [ofTokens, readsBack_of_isJson spells.isJson [], Reading.deliver]
  simp only [parse, lexed, Option.bind_eq_bind, Option.bind_some, built]

end Documents

section Writing

theorem quoted_escapeChar (c : Char) {codes : List Nat} {cs : List Char}
    (rest : Quoted codes cs) : Quoted (c.toNat :: codes) (escapeChar c ++ cs) := by
  by_cases short : c ∈ shortEscaped
  · obtain ⟨e, written, read⟩ := escapeChar_short short
    rw [written]
    exact .short read rest
  · rw [escapeChar_other short]
    split
    case isTrue control => exact .hex (hexCode_hexDigit _ control) rest
    case isFalse visible =>
      simp only [shortEscaped, List.mem_cons, not_or] at short
      exact .plain ⟨short.1, short.2.1⟩ visible rest

theorem quoted_escaped (cs : List Char) :
    Quoted (cs.map Char.toNat) (cs.flatMap escapeChar) := by
  induction cs with
  | nil => exact .nil
  | cons c cs ih => exact quoted_escapeChar c ih

theorem lexeme_write {t : Token}
    (numeral : ∀ literal, t = .number literal → Numeral literal.toList) : Lexeme t t.write := by
  cases t with
  | number literal =>
      have spelling := Lexeme.number (numeral literal rfl)
      rwa [String.ofList_toList] at spelling
  | string text =>
      cases text with
      | none =>
          have unpaired : hexCode 'd' '8' '0' '0' = some 0xD800 := rfl
          exact .string (.hex unpaired .nil)
      | some text =>
          have spelling := Lexeme.string (quoted_escaped text.toList)
          rwa [textOfCodes_toNat] at spelling
  | _ => exact .fixed trivial

theorem spelled_write {ts : List Token} (all : ∀ t ∈ ts, Lexeme t t.write) :
    Spelled ts (ts.flatMap Token.write) := by
  induction ts with
  | nil => exact .nil
  | cons t ts ih =>
      obtain ⟨first, others⟩ := List.forall_mem_cons.mp all
      exact .token first (ih others)

/-- What a document is written as spells it, if its numbers are numerals. -/
theorem spells_write {d : Document} (isJson : d.IsJson)
    (numerals : ∀ literal, Token.number literal ∈ tokens d → Numeral literal.toList) :
    Spells (write d) d := by
  refine ⟨isJson, ?_⟩
  rw [write, String.toList_ofList]
  apply spelled_write
  intro t among
  apply lexeme_write
  rintro literal rfl
  exact numerals literal among

end Writing

end Json

end ImportFlattening
