import ImportFlattening.FlatText
import ImportFlattening.Proofs.LinePattern

/-! # Import lines

An import line can be told in three ways: by its parts (`ImportLine`), by the test that is made of
every line of a text (`isImportLine`), and by a pattern that is searched for in the text as a whole
(`importPattern`). The three agree, so emptying import lines is a matter of single lines, and what
it does to a text it does to each part between line feeds.
-/

namespace ImportFlattening

namespace Text

theorem length_split (sep : Char) (cs : List Char) :
    (split sep cs).length = cs.count sep + 1 := by
  induction cs with
  | nil => rfl
  | cons c cs ih =>
      by_cases same : c = sep
      · subst same
        rw [split_cons_sep, List.length_cons, ih, List.count_cons_self]
      · cases shape : split sep cs with
        | nil => exact absurd shape (split_ne_nil sep cs)
        | cons piece pieces =>
            rw [shape] at ih
            rw [split_cons_ne same shape, List.count_cons_of_ne same]
            exact ih

theorem length_pieces (sep : Char) (s : String) :
    (pieces sep s).length = s.toList.count sep + 1 := by
  rw [pieces, List.length_map, length_split]

theorem pieces_append_feed (a b : String) :
    pieces '\n' (a ++ "\n" ++ b) = pieces '\n' a ++ pieces '\n' b :=
  pieces_append_sep '\n' a b

end Text

namespace FlatText

/-- White space, if any, the word `import`, and then nothing, or white space and anything. -/
def ImportLine (line : List Char) : Prop :=
  ∃ blanks rest, line = blanks ++ ("import".toList ++ rest) ∧ (∀ c ∈ blanks, Text.isBlank c) ∧
    (rest = [] ∨ ∃ c more, rest = c :: more ∧ Text.isBlank c)

/-- White space that does not end the line. -/
def isInlineBlank (c : Char) : Bool := Text.isBlank c && c ≠ '\n'

/-- White space and then anything up to the end of the line, or nothing at all. -/
def importTail : Pattern :=
  .optional <| .seq (.one isInlineBlank) <| .seq (.many isInlineBlank) <| .many (· ≠ '\n')

/-- An import line somewhere in a text: `^[^\S\n]*import(?:[^\S\n]+.*)?$`, where `^` and `$` stand
for the start and the end of any line. -/
def importPattern : Pattern :=
  .seq .lineStart <| .seq (.many isInlineBlank) <| .seq (.literal "import".toList) <|
    .seq importTail .lineEnd

section Lines

variable {line blanks : List Char} {c : Char}

theorem isImportLine_iff : isImportLine line ↔ ImportLine line := by
  constructor
  · intro found
    have whole : line = line.takeWhile Text.isBlank ++ line.dropWhile Text.isBlank :=
      List.takeWhile_append_dropWhile.symm
    have blank : ∀ c ∈ line.takeWhile Text.isBlank, Text.isBlank c :=
      List.all_eq_true.mp List.all_takeWhile
    unfold isImportLine at found
    split at found
    case h_1 rest shape =>
      rw [shape] at whole
      refine ⟨_, rest, whole, blank, ?_⟩
      split at found
      case h_1 => exact .inl rfl
      case h_2 c more => exact .inr ⟨c, more, rfl, found⟩
    case h_2 => cases found
  · rintro ⟨blanks, rest, rfl, blank, tail⟩
    have start : (blanks ++ ("import".toList ++ rest)).dropWhile Text.isBlank =
        'i' :: 'm' :: 'p' :: 'o' :: 'r' :: 't' :: rest := by
      rw [List.dropWhile_append_of_pos blank]
      rfl
    rw [isImportLine, start]
    rcases tail with rfl | ⟨c, more, rfl, after⟩
    · rfl
    · exact after

instance (line : List Char) : Decidable (ImportLine line) := decidable_of_iff _ isImportLine_iff

theorem emptyImportLine_eq (line : List Char) :
    emptyImportLine line = if ImportLine line then [] else line := by
  simp only [emptyImportLine, isImportLine_iff]

theorem isInlineBlank_iff : isInlineBlank c ↔ Text.isBlank c ∧ c ≠ '\n' := by
  simp [isInlineBlank]

theorem forall_isInlineBlank_iff :
    (∀ c ∈ blanks, isInlineBlank c) ↔ (∀ c ∈ blanks, Text.isBlank c) ∧ '\n' ∉ blanks := by
  simp only [isInlineBlank_iff, forall_and]
  refine and_congr_right fun _ => ⟨fun others member => others _ member rfl, ?_⟩
  intro absent c member
  exact ne_of_mem_of_not_mem member absent

theorem mem_ends_importTail {place stop : Place} : stop ∈ importTail.ends place ↔
    ∃ rest, place.Leads rest stop ∧ '\n' ∉ rest ∧
      (rest = [] ∨ ∃ c more, rest = c :: more ∧ Text.isBlank c) := by
  simp only [importTail, Pattern.mem_ends_optional, Pattern.mem_ends_seq, Pattern.mem_ends_one,
    Pattern.mem_ends_many]
  constructor
  · rintro (⟨_, ⟨c, blank, first⟩, _, ⟨blanks, blanks_inline, second⟩, more, others, third⟩ | rfl)
    · obtain ⟨blank, notFeed⟩ := isInlineBlank_iff.mp blank
      have inline := (forall_isInlineBlank_iff.mp blanks_inline).2
      have oneLine : '\n' ∉ more := fun member => by simpa using others _ member
      refine ⟨_, first.trans (second.trans third), ?_, .inr ⟨c, _, rfl, blank⟩⟩
      simp [Ne.symm notFeed, inline, oneLine]
    · exact ⟨[], Place.leads_nil.mpr rfl, List.not_mem_nil, .inl rfl⟩
  · rintro ⟨rest, leads, oneLine, rfl | ⟨c, more, rfl, blank⟩⟩
    · exact .inr (Place.leads_nil.mp leads)
    · obtain ⟨notFeed, oneLine⟩ := List.ne_and_not_mem_of_not_mem_cons oneLine
      have parts : place.Leads ([c] ++ more) stop := leads
      obtain ⟨middle, first, second⟩ := parts.cut
      have others : ∀ d ∈ more, decide (d ≠ '\n') = true :=
        fun d member => decide_eq_true (ne_of_mem_of_not_mem member oneLine)
      exact .inl ⟨middle, ⟨c, isInlineBlank_iff.mpr ⟨blank, Ne.symm notFeed⟩, first⟩,
        middle, ⟨[], by simp, Place.leads_nil.mpr rfl⟩, more, others, second⟩

theorem wholeLines_importPattern : importPattern.WholeLines ImportLine := by
  intro place stop
  simp only [importPattern, Pattern.mem_ends_seq, Pattern.mem_ends_lineStart,
    Pattern.mem_ends_many, Pattern.mem_ends_literal, mem_ends_importTail,
    Pattern.mem_ends_lineEnd]
  constructor
  · rintro ⟨_, ⟨start, rfl⟩, _, ⟨blanks, inline, first⟩, _, word, _, ⟨rest, last, oneLine, tail⟩,
      ended, rfl⟩
    obtain ⟨blank, inside⟩ := forall_isInlineBlank_iff.mp inline
    refine ⟨start, ended, _, first.trans (word.trans last), ?_, blanks, rest, rfl, blank, tail⟩
    simp [inside, oneLine]
  · rintro ⟨start, ended, _, leads, oneLine, blanks, rest, rfl, blank, tail⟩
    simp only [List.mem_append, not_or] at oneLine
    obtain ⟨afterBlanks, first, leads⟩ := leads.cut
    obtain ⟨afterWord, word, last⟩ := leads.cut
    have inline := forall_isInlineBlank_iff.mpr ⟨blank, oneLine.1⟩
    exact ⟨place, ⟨start, rfl⟩, afterBlanks, ⟨blanks, inline, first⟩, afterWord, word, stop,
      ⟨rest, last, oneLine.2.2, tail⟩, ended, rfl⟩

end Lines

/-- The line itself, or nothing in the place of an import line. -/
def withoutImport (line : String) : String := if ImportLine line.toList then "" else line

section Strip

variable {line : String}

theorem withoutImport_of_not (other : ¬ ImportLine line.toList) : withoutImport line = line :=
  if_neg other

theorem not_importLine_empty : ¬ ImportLine [] := by decide

theorem not_importLine_withoutImport (line : String) :
    ¬ ImportLine (withoutImport line).toList := by
  unfold withoutImport
  split
  · exact not_importLine_empty
  · assumption

theorem feed_notMem_withoutImport (oneLine : '\n' ∉ line.toList) :
    '\n' ∉ (withoutImport line).toList := by
  unfold withoutImport
  split
  · exact List.not_mem_nil
  · exact oneLine

theorem stripImports_eq (text : String) :
    stripImports text = Text.ofPieces '\n' ((Text.pieces '\n' text).map withoutImport) := by
  have lines : (fun line => (withoutImport (String.ofList line)).toList) = emptyImportLine := by
    funext line
    rw [emptyImportLine_eq, withoutImport, String.toList_ofList]
    split <;> simp
  simp [stripImports, Text.ofPieces, Text.pieces, Function.comp_def, lines]

theorem pieces_stripImports (text : String) :
    Text.pieces '\n' (stripImports text) = (Text.pieces '\n' text).map withoutImport := by
  rw [stripImports_eq, Text.pieces_ofPieces]
  · simp [Text.pieces_ne_nil]
  · intro piece member
    obtain ⟨line, among, rfl⟩ := List.mem_map.mp member
    exact feed_notMem_withoutImport (Text.sep_notMem_of_mem_pieces among)

theorem erase_importPattern (text : String) : importPattern.erase text = stripImports text := by
  rw [wholeLines_importPattern.erase_eq, stripImports]
  simp only [← emptyImportLine_eq]

theorem map_withoutImport_eq {lines : List String}
    (others : ∀ line ∈ lines, ¬ ImportLine line.toList) : lines.map withoutImport = lines := by
  have same : lines.map withoutImport = lines.map id :=
    List.map_congr_left fun line member => withoutImport_of_not (others line member)
  rw [same, List.map_id]

theorem stripImports_eq_self {text : String}
    (others : ∀ line ∈ Text.pieces '\n' text, ¬ ImportLine line.toList) :
    stripImports text = text := by
  rw [stripImports_eq, map_withoutImport_eq others, Text.ofPieces_pieces]

theorem not_importLine_of_mem_stripImports {text line : String}
    (member : line ∈ Text.pieces '\n' (stripImports text)) : ¬ ImportLine line.toList := by
  rw [pieces_stripImports] at member
  obtain ⟨original, -, rfl⟩ := List.mem_map.mp member
  exact not_importLine_withoutImport original

theorem stripImports_append (a b : String) :
    stripImports (a ++ "\n" ++ b) = stripImports a ++ "\n" ++ stripImports b := by
  simp only [stripImports_eq, Text.pieces_append_feed, List.map_append]
  exact Text.ofPieces_append_sep '\n' (by simp [Text.pieces_ne_nil]) (by simp [Text.pieces_ne_nil])

theorem count_feed_stripImports (text : String) :
    (stripImports text).toList.count '\n' = text.toList.count '\n' := by
  have lines := congrArg List.length (pieces_stripImports text)
  rw [List.length_map, Text.length_pieces, Text.length_pieces] at lines
  exact Nat.succ.inj lines

/-- Emptying import lines is erasing the import pattern from the whole text, and it is done line by
line: import lines become empty and all others stay as they are. So no line feed is lost, doing it
again changes nothing, and it may be done to the two parts around any line feed. -/
theorem stripImports_is_linewise (text : String) :
    stripImports text = importPattern.erase text ∧
    stripImports text = Text.ofPieces '\n' ((Text.pieces '\n' text).map fun line =>
      if ImportLine line.toList then "" else line) ∧
    (stripImports text).toList.count '\n' = text.toList.count '\n' ∧
    stripImports (stripImports text) = stripImports text ∧
    ∀ a b : String, stripImports (a ++ "\n" ++ b) = stripImports a ++ "\n" ++ stripImports b :=
  ⟨(erase_importPattern text).symm, stripImports_eq text, count_feed_stripImports text,
    stripImports_eq_self fun _ member => not_importLine_of_mem_stripImports member,
    stripImports_append⟩

example : stripImports "\u00a0import './B';\r\nimports[0]\n\timport" = "\nimports[0]\n" := by decide

end Strip

end FlatText

end ImportFlattening
