import ImportFlattening.Json

/-! # Reading back what is written

A document that is made of texts, arrays and objects alone is read back from the text that it is
written as, whatever characters its texts and names are made of (`Json.parse_write`). Its characters
are those of its literals, its tokens are found again one by one, and the reader's machine builds it
from them.
-/

namespace ImportFlattening

/-- The document holds no other values than texts, and every name in it is a text. -/
inductive Document.Textual : Document → Prop where
  | text (s : String) : Textual (.text s)
  | array {items : List Document} (all : ∀ d ∈ items, Textual d) : Textual (.array items)
  | record {members : List (String × Document)} (all : ∀ m ∈ members, Textual m.2) :
      Textual (.record members)

namespace Json

section Literals

theorem not_surrogate (c : Char) :
    isHighSurrogate c.toNat = false ∧ isLowSurrogate c.toNat = false := by
  have valid : c.toNat.isValidChar := c.valid
  simp only [Nat.isValidChar] at valid
  simp only [isHighSurrogate, isLowSurrogate, Bool.and_eq_false_iff, decide_eq_false_iff_not]
  omega

theorem charsFrom_toNat (done cs : List Char) :
    charsFrom done (cs.map Char.toNat) = some (done.reverse ++ cs) := by
  induction cs generalizing done with
  | nil => simp [charsFrom]
  | cons c cs ih =>
      obtain ⟨high, low⟩ := not_surrogate c
      cases cs with
      | nil => simp [charsFrom, high, low]
      | cons next cs => simpa [charsFrom, high, low] using ih (c :: done)

theorem textOfCodes_toNat (text : String) :
    textOfCodes (text.toList.map Char.toNat) = some text := by
  simp [textOfCodes, charsFrom_toNat]

theorem hexCode_hexDigit : ∀ n < 0x20,
    hexCode '0' '0' (hexDigit (n / 16)) (hexDigit (n % 16)) = some n := by
  decide

theorem scanLiteral_short {e c : Char} (short : shortEscape e = some c) (done : List Nat)
    (rest : List Char) :
    scanLiteral done ('\\' :: e :: rest) = scanLiteral (c.toNat :: done) rest := by
  have other : e ≠ 'u' := by
    rintro rfl
    cases short
  simp [scanLiteral, other, short]

theorem scanLiteral_hex {a b c d : Char} {code : Nat} (hex : hexCode a b c d = some code)
    (done : List Nat) (rest : List Char) :
    scanLiteral done ('\\' :: 'u' :: a :: b :: c :: d :: rest) =
      scanLiteral (code :: done) rest := by
  simp only [scanLiteral, hex]

theorem scanLiteral_plain {c : Char} (unescaped : c ≠ '"' ∧ c ≠ '\\') (visible : ¬ c.toNat < 0x20)
    (done : List Nat) (rest : List Char) :
    scanLiteral done (c :: rest) = scanLiteral (c.toNat :: done) rest := by
  simp [scanLiteral, unescaped, visible]

/-- The characters that have an escape of their own when they are written. -/
def shortEscaped : List Char := ['"', '\\', '\x08', '\x0c', '\n', '\r', '\t']

theorem escapeChar_short {c : Char} (short : c ∈ shortEscaped) :
    ∃ e, escapeChar c = ['\\', e] ∧ shortEscape e = some c := by
  simp only [shortEscaped, List.mem_cons, List.not_mem_nil, or_false] at short
  rcases short with rfl | rfl | rfl | rfl | rfl | rfl | rfl <;> exact ⟨_, rfl, rfl⟩

theorem escapeChar_other {c : Char} (other : c ∉ shortEscaped) :
    escapeChar c = if c.toNat < 0x20 then
      ['\\', 'u', '0', '0', hexDigit (c.toNat / 16), hexDigit (c.toNat % 16)] else [c] := by
  simp only [shortEscaped, List.mem_cons, List.not_mem_nil, or_false, not_or] at other
  simp only [escapeChar, other, if_false]

theorem scanLiteral_escapeChar (done : List Nat) (c : Char) (rest : List Char) :
    scanLiteral done (escapeChar c ++ rest) = scanLiteral (c.toNat :: done) rest := by
  by_cases short : c ∈ shortEscaped
  · obtain ⟨e, written, read⟩ := escapeChar_short short
    rw [written]
    exact scanLiteral_short read done rest
  · rw [escapeChar_other short]
    split
    case isTrue control => exact scanLiteral_hex (hexCode_hexDigit _ control) done rest
    case isFalse visible =>
      simp only [shortEscaped, List.mem_cons, not_or] at short
      exact scanLiteral_plain ⟨short.1, short.2.1⟩ visible done rest

theorem scanLiteral_escaped (done : List Nat) (cs rest : List Char) :
    scanLiteral done (cs.flatMap escapeChar ++ '"' :: rest) =
      some (done.reverse ++ cs.map Char.toNat, rest) := by
  induction cs generalizing done with
  | nil => simp [scanLiteral]
  | cons c cs ih =>
      rw [List.flatMap_cons, List.append_assoc, scanLiteral_escapeChar, ih]
      simp

end Literals

section Tokens

/-- The token is found again in front of anything that may follow. Numbers are not of this kind. -/
def Token.SelfDelimiting (token : Token) : Prop :=
  ∀ rest, nextToken (token.write ++ rest) = some (token, rest)

theorem selfDelimiting_string (text : String) : (Token.string (some text)).SelfDelimiting := by
  intro rest
  simp [Token.write, writeLiteral, nextToken, scanLiteral_escaped, textOfCodes_toNat]

theorem nextToken_space {c : Char} (space : isSpace c) (rest : List Char) :
    nextToken (c :: rest) = none := by
  simp only [isSpace, Bool.or_eq_true, decide_eq_true_eq] at space
  rcases space with ((rfl | rfl) | rfl) | rfl <;> rfl

theorem lexFrom_token {cs rest : List Char} {token : Token}
    (next : nextToken cs = some (token, rest)) (done : List Token) :
    lexFrom done cs = lexFrom (token :: done) rest := by
  cases cs with
  | nil => cases next
  | cons c cs =>
      have visible : ¬ isSpace c := by
        intro space
        rw [nextToken_space space] at next
        cases next
      rw [lexFrom, if_neg visible]
      split
      case h_1 none => rw [next] at none; cases none
      case h_2 token' rest' found => rw [next] at found; cases found; rfl

theorem lexFrom_write {tokens : List Token} (all : ∀ token ∈ tokens, token.SelfDelimiting)
    (done : List Token) :
    lexFrom done (tokens.flatMap Token.write) = some (done.reverse ++ tokens) := by
  induction tokens generalizing done with
  | nil => simp [lexFrom]
  | cons token tokens ih =>
      obtain ⟨first, others⟩ := List.forall_mem_cons.mp all
      rw [List.flatMap_cons, lexFrom_token (first _), ih others]
      simp

end Tokens

section Machine

theorem itemTokens_cons (item : Document) (rest : List Document) :
    itemTokens (item :: rest) = tokens item ++ rest.flatMap fun d => .comma :: tokens d := by
  induction rest generalizing item with
  | nil => simp [itemTokens]
  | cons next rest ih => simp [itemTokens, ih]

theorem memberTokens_cons (m : Option String × Document) (rest : List (Option String × Document)) :
    memberTokens (m :: rest) = .string m.1 :: .colon :: tokens m.2 ++
      rest.flatMap fun m => .comma :: .string m.1 :: .colon :: tokens m.2 := by
  induction rest generalizing m with
  | nil => simp [memberTokens]
  | cons next rest ih => simp [memberTokens, ih]

theorem of_mem_itemTokens {items : List Document} {token : Token}
    (member : token ∈ itemTokens items) :
    token = .comma ∨ ∃ d ∈ items, token ∈ tokens d := by
  cases items with
  | nil => simp [itemTokens] at member
  | cons item rest =>
      simp only [itemTokens_cons, List.mem_append, List.mem_flatMap, List.mem_cons] at member
      rcases member with first | ⟨d, later, rfl | inside⟩
      · exact .inr ⟨item, by simp, first⟩
      · exact .inl rfl
      · exact .inr ⟨d, by simp [later], inside⟩

theorem of_mem_memberTokens {members : List (Option String × Document)} {token : Token}
    (member : token ∈ memberTokens members) :
    token = .comma ∨ token = .colon ∨
      ∃ m ∈ members, token = .string m.1 ∨ token ∈ tokens m.2 := by
  cases members with
  | nil => simp [memberTokens] at member
  | cons m rest =>
      simp only [memberTokens_cons, List.mem_append, List.mem_flatMap, List.mem_cons] at member
      rcases member with (name | colon | first) | ⟨m', later, comma | name | colon | inside⟩
      · exact .inr (.inr ⟨m, by simp, .inl name⟩)
      · exact .inr (.inl colon)
      · exact .inr (.inr ⟨m, by simp, .inr first⟩)
      · exact .inl comma
      · exact .inr (.inr ⟨m', by simp [later], .inl name⟩)
      · exact .inr (.inl colon)
      · exact .inr (.inr ⟨m', by simp [later], .inr inside⟩)

/-- The machine that reads the document's tokens where a value is expected delivers it. -/
def ReadsBack (d : Document) : Prop :=
  ∀ stack, (tokens d).foldlM Reading.step (.value stack) = some (.deliver d stack)

theorem foldlM_firstItem (d : Document) (stack : List Waiting) :
    (tokens d).foldlM Reading.step (.firstItem stack) =
      (tokens d).foldlM Reading.step (.value (.items [] :: stack)) := by
  cases d <;> rfl

theorem foldlM_laterItems {rest : List Document} (all : ∀ d ∈ rest, ReadsBack d)
    (front : List Document) (stack : List Waiting) :
    (rest.flatMap fun d => .comma :: tokens d).foldlM Reading.step (.afterItem front stack) =
      some (.afterItem (rest.reverse ++ front) stack) := by
  induction rest generalizing front with
  | nil => rfl
  | cons d rest ih =>
      obtain ⟨first, others⟩ := List.forall_mem_cons.mp all
      have opened : Reading.step (.afterItem front stack) .comma =
          some (.value (.items front :: stack)) := rfl
      simp only [List.flatMap_cons, List.cons_append, List.foldlM_cons, List.foldlM_append, opened,
        first (.items front :: stack), Option.bind_eq_bind, Option.bind_some, Reading.deliver,
        ih others]
      simp

theorem foldlM_laterMembers {rest : List (Option String × Document)}
    (all : ∀ m ∈ rest, ReadsBack m.2) (front : List (Option String × Document))
    (stack : List Waiting) :
    (rest.flatMap fun m => .comma :: .string m.1 :: .colon :: tokens m.2).foldlM Reading.step
      (.afterMember front stack) = some (.afterMember (rest.reverse ++ front) stack) := by
  induction rest generalizing front with
  | nil => rfl
  | cons m rest ih =>
      obtain ⟨first, others⟩ := List.forall_mem_cons.mp all
      have opened : Reading.step (.afterMember front stack) .comma = some (.name front stack) := rfl
      have named : Reading.step (.name front stack) (.string m.1) =
          some (.colon front m.1 stack) := rfl
      have divided : Reading.step (.colon front m.1 stack) .colon =
          some (.value (.member front m.1 :: stack)) := rfl
      simp only [List.flatMap_cons, List.cons_append, List.foldlM_cons, List.foldlM_append, opened,
        named, divided, first (.member front m.1 :: stack), Option.bind_eq_bind, Option.bind_some,
        Reading.deliver, ih others]
      simp

theorem readsBack_array {items : List Document} (all : ∀ d ∈ items, ReadsBack d) :
    ReadsBack (.array items) := by
  intro stack
  cases items with
  | nil => rfl
  | cons item rest =>
      obtain ⟨first, others⟩ := List.forall_mem_cons.mp all
      have opened : Reading.step (.value stack) .openArray = some (.firstItem stack) := rfl
      have delivered : Reading.deliver item (.items [] :: stack) = .afterItem [item] stack := rfl
      simp only [tokens, itemTokens_cons, List.cons_append, List.foldlM_cons, List.foldlM_append,
        opened, foldlM_firstItem, first (.items [] :: stack), delivered, Option.bind_eq_bind,
        Option.bind_some, foldlM_laterItems others]
      simp [Reading.step]

theorem readsBack_object {members : List (Option String × Document)}
    (all : ∀ m ∈ members, ReadsBack m.2) : ReadsBack (.object members) := by
  intro stack
  cases members with
  | nil => rfl
  | cons m rest =>
      obtain ⟨first, others⟩ := List.forall_mem_cons.mp all
      have opened : Reading.step (.value stack) .openObject = some (.firstName stack) := rfl
      have named : Reading.step (.firstName stack) (.string m.1) = some (.colon [] m.1 stack) := rfl
      have divided : Reading.step (.colon [] m.1 stack) .colon =
          some (.value (.member [] m.1 :: stack)) := rfl
      have delivered : Reading.deliver m.2 (.member [] m.1 :: stack) = .afterMember [m] stack := rfl
      simp only [tokens, memberTokens_cons, List.cons_append, List.foldlM_cons, List.foldlM_append,
        opened, named, divided, first (.member [] m.1 :: stack), delivered, Option.bind_eq_bind,
        Option.bind_some, foldlM_laterMembers others]
      simp [Reading.step]

end Machine

theorem selfDelimiting_tokens {d : Document} (textual : d.Textual) :
    ∀ token ∈ tokens d, token.SelfDelimiting := by
  induction textual with
  | text s =>
      intro token member
      obtain rfl := List.mem_singleton.mp member
      exact selfDelimiting_string s
  | @array items _ ih =>
      intro token member
      simp only [tokens, List.mem_append, List.mem_cons, List.not_mem_nil, or_false] at member
      rcases member with (rfl | inside) | rfl
      · exact fun _ => rfl
      · rcases of_mem_itemTokens inside with rfl | ⟨d, among, member⟩
        · exact fun _ => rfl
        · exact ih d among token member
      · exact fun _ => rfl
  | @record members _ ih =>
      intro token member
      simp only [Document.record, tokens, List.mem_append, List.mem_cons, List.not_mem_nil,
        or_false] at member
      rcases member with (rfl | inside) | rfl
      · exact fun _ => rfl
      · rcases of_mem_memberTokens inside with rfl | rfl | ⟨m, among, member⟩
        · exact fun _ => rfl
        · exact fun _ => rfl
        · obtain ⟨named, known, rfl⟩ := List.mem_map.mp among
          rcases member with rfl | member
          · exact selfDelimiting_string named.1
          · exact ih named known token member
      · exact fun _ => rfl

theorem readsBack_of_textual {d : Document} (textual : d.Textual) : ReadsBack d := by
  induction textual with
  | text s => exact fun stack => rfl
  | array _ ih => exact readsBack_array ih
  | record _ ih =>
      apply readsBack_object
      intro m member
      obtain ⟨named, among, rfl⟩ := List.mem_map.mp member
      exact ih named among

theorem parse_write {d : Document} (textual : d.Textual) : parse (write d) = some d := by
  have lexed : lex (write d).toList = some (tokens d) := by
    rw [lex, write, String.toList_ofList, lexFrom_write (selfDelimiting_tokens textual)]
    rfl
  have built : ofTokens (tokens d) = some d := by
    simp only [ofTokens, readsBack_of_textual textual [], Reading.deliver]
  simp only [parse, lexed, Option.bind_eq_bind, Option.bind_some, built]

end Json

end ImportFlattening
