import ImportFlattening.Proofs.FlattenOutcome
import ImportFlattening.Proofs.ImportLines

/-! # Lines of the flattened text

A chapter has the lines of its file, emptied where they were imports, between two lines before them
and one after them. So the lines of a file are found in the flattened text at a distance that the
numbers of lines of the files before it determine. None of the lines is an import line, and a
flattened text that is flattened again stays as it is.
-/

namespace ImportFlattening

namespace FlatText

/-- The text of a file, empty if there is none. -/
def textOf (texts : NameMap String) (name : SourceName) : String := (texts.get? name).getD ""

/-- A heading, an empty line, the lines of the text without imports, and another empty line. -/
def chapterLines (name : SourceName) (text : String) : List String :=
  ["// File: " ++ name.text, ""] ++ (Text.pieces '\n' text).map withoutImport ++ [""]

/-- How many lines stand before a chapter, from the numbers of lines of the files before it. -/
def linesBefore : (counts : List Nat) → Nat
  | [] => 0
  | count :: counts => count + 3 + linesBefore counts

section Chapter

variable {name : SourceName} {text line : String}

theorem pieces_heading (oneLine : '\n' ∉ name.text.toList) :
    Text.pieces '\n' ("// File: " ++ name.text) = ["// File: " ++ name.text] := by
  have inside : '\n' ∉ ("// File: " ++ name.text).toList := by simpa using oneLine
  rw [Text.pieces, Text.split_of_notMem inside, List.map_singleton, String.ofList_toList]

theorem not_importLine_heading (name : SourceName) :
    ¬ ImportLine ("// File: " ++ name.text).toList := by
  have slash : ("// File: " ++ name.text).toList = '/' :: ("/ File: " ++ name.text).toList := by
    simp
  rw [← isImportLine_iff, slash, isImportLine, List.dropWhile_cons_of_neg (by decide)]
  exact Bool.false_ne_true

theorem pieces_chapter_append (oneLine : '\n' ∉ name.text.toList) (text rest : String) :
    Text.pieces '\n' (chapter name text ++ rest) =
      chapterLines name text ++ Text.pieces '\n' rest := by
  have feeds : "\n\n" = "\n" ++ "" ++ "\n" := rfl
  have layout : chapter name text ++ rest =
      "// File: " ++ name.text ++ "\n" ++ ("" ++ "\n" ++
        (stripImports text ++ "\n" ++ ("" ++ "\n" ++ rest))) := by
    simp only [chapter, feeds, String.append_assoc]
  rw [layout, Text.pieces_append_feed, Text.pieces_append_feed, Text.pieces_append_feed,
    Text.pieces_append_feed, pieces_heading oneLine, pieces_stripImports, Text.pieces_empty]
  simp [chapterLines]

theorem length_chapterLines (name : SourceName) (text : String) :
    (chapterLines name text).length = (Text.pieces '\n' text).length + 3 := by
  simp [chapterLines]

theorem not_importLine_of_mem_chapterLines (member : line ∈ chapterLines name text) :
    ¬ ImportLine line.toList := by
  simp only [chapterLines, List.mem_append, List.mem_cons, List.not_mem_nil, or_false,
    List.mem_map] at member
  rcases member with ((rfl | rfl) | ⟨original, -, rfl⟩) | rfl
  · exact not_importLine_heading name
  · exact not_importLine_empty
  · exact not_importLine_withoutImport original
  · exact not_importLine_empty

/-- The lines of the text follow the heading and the empty line after it. -/
theorem getElem?_chapterLines {j : Nat} (name : SourceName)
    (found : (Text.pieces '\n' text)[j]? = some line) :
    (chapterLines name text)[2 + j]? = some (withoutImport line) := by
  obtain ⟨bound, -⟩ := List.getElem?_eq_some_iff.mp found
  have position : ((Text.pieces '\n' text).map withoutImport ++ [""])[j]? =
      some (withoutImport line) := by
    rw [List.getElem?_append_left (by simpa using bound), List.getElem?_map, found,
      Option.map_some]
  rw [chapterLines, List.append_assoc, List.getElem?_append_right (by simp)]
  simpa using position

end Chapter

section Concatenate

variable {texts : NameMap String} {order before : List SourceName} {text : String}

theorem concatenate_eq_lines (oneLine : ∀ name ∈ order, '\n' ∉ name.text.toList)
    (joined : concatenate texts order = .ok text) :
    Text.pieces '\n' text =
      (order.flatMap fun name => chapterLines name (textOf texts name)) ++ [""] := by
  induction order generalizing text with
  | nil =>
      obtain rfl : "" = text := Except.ok.inj joined
      rfl
  | cons name order ih =>
      obtain ⟨first, others⟩ := List.forall_mem_cons.mp oneLine
      rw [concatenate_cons] at joined
      cases found : texts.get? name with
      | none => simp [found] at joined
      | some content =>
          simp only [found] at joined
          cases later : concatenate texts order with
          | error e =>
              rw [later] at joined
              cases joined
          | ok rest =>
              rw [later] at joined
              obtain rfl : chapter name content ++ rest = text := Except.ok.inj joined
              rw [pieces_chapter_append first, ih others later, List.flatMap_cons,
                List.append_assoc]
              simp [textOf, found]

theorem length_flatMap_chapterLines (texts : NameMap String) (before : List SourceName) :
    (before.flatMap fun name => chapterLines name (textOf texts name)).length =
      linesBefore (before.map fun name => (Text.pieces '\n' (textOf texts name)).length) := by
  induction before with
  | nil => rfl
  | cons name before ih =>
      rw [List.flatMap_cons, List.length_append, length_chapterLines, ih]
      rfl

/-- The lines of a file among those of all files. -/
theorem getElem?_flatMap_chapterLines {name : SourceName} {line : String} {j : Nat}
    (found : (Text.pieces '\n' (textOf texts name))[j]? = some line) (before after : List SourceName)
    (rest : List String) :
    (((before ++ name :: after).flatMap fun name => chapterLines name (textOf texts name)) ++
      rest)[linesBefore (before.map fun earlier =>
        (Text.pieces '\n' (textOf texts earlier)).length) + (2 + j)]? =
          some (withoutImport line) := by
  have own := getElem?_chapterLines name found
  obtain ⟨bound, -⟩ := List.getElem?_eq_some_iff.mp own
  rw [← length_flatMap_chapterLines, List.flatMap_append, List.flatMap_cons, List.append_assoc,
    List.append_assoc, List.getElem?_append_right (Nat.le_add_right _ _), Nat.add_sub_cancel_left,
    List.getElem?_append_left bound]
  exact own

end Concatenate

end FlatText

namespace Compilation

variable {c : Compilation} {unit : SourceUnit} {text : String}

/-- A target that imports nothing is flattened alone. -/
theorem flatten_alone (found : c.units.get? c.target = some unit) (alone : unit.imports = [])
    (known : c.texts.get? c.target = some text) (policy : Policy) :
    c.flatten policy = .ok
      { target := c.target
        order := { names := [c.target], cycles := [], skipped := [] }
        text := FlatText.chapter c.target text } := by
  have discovered : discover c.units policy c.target =
      .ok (Survey.start c.target).found := by
    rw [discover_eq_outcome policy found, SourceUnit.importsFrom, alone, List.map_nil,
      Survey.outcome_nil]
    rfl
  have ordered : c.order policy = .ok { names := [c.target], cycles := [], skipped := [] } := by
    simp only [order, discovered]
    rfl
  have joined : FlatText.concatenate c.texts [c.target] = .ok (FlatText.chapter c.target text) := by
    have rest : FlatText.concatenate c.texts [] = .ok "" := rfl
    rw [FlatText.concatenate_cons, known]
    simp only [rest, Except.map, String.append_empty]
  simp only [flatten, ordered, bind, Except.bind, joined]
  rfl

end Compilation

namespace FlatText

/-- Texts known for all files of an order, none of whose names has a line feed, are joined to a text
with the lines of all files in their order, import lines emptied, under headings and between empty
lines. Where a line of a file stands depends on the numbers of lines of the files before it only. No
line of the text is an import line, so the text is as it was after import lines have been emptied,
and flattened once more as the text of a file without imports. -/
theorem concatenate_keeps_lines (texts : NameMap String) (order : List SourceName)
    (oneLine : ∀ name ∈ order, '\n' ∉ name.text.toList)
    (known : ∀ name ∈ order, texts.contains name) :
    ∃ text, concatenate texts order = .ok text ∧
      Text.pieces '\n' text =
        (order.flatMap fun name => chapterLines name (textOf texts name)) ++ [""] ∧
      (∀ before name after, order = before ++ name :: after →
        ∀ j line, (Text.pieces '\n' (textOf texts name))[j]? = some line →
          (Text.pieces '\n' text)[linesBefore (before.map fun earlier =>
            (Text.pieces '\n' (textOf texts earlier)).length) + (2 + j)]? =
              some (withoutImport line)) ∧
      (∀ line ∈ Text.pieces '\n' text, ¬ ImportLine line.toList) ∧
      stripImports text = text ∧
      ∀ (c : Compilation) (unit : SourceUnit) (policy : Policy),
        c.units.get? c.target = some unit → unit.imports = [] →
        c.texts.get? c.target = some text → c.flatten policy = .ok
          { target := c.target
            order := { names := [c.target], cycles := [], skipped := [] }
            text := "// File: " ++ c.target.text ++ "\n\n" ++ text ++ "\n\n" } := by
  obtain ⟨text, joined⟩ := concatenate_complete known
  have lines := concatenate_eq_lines oneLine joined
  have others : ∀ line ∈ Text.pieces '\n' text, ¬ ImportLine line.toList := by
    intro line member
    rw [lines] at member
    rcases List.mem_append.mp member with inside | last
    · obtain ⟨name, -, own⟩ := List.mem_flatMap.mp inside
      exact not_importLine_of_mem_chapterLines own
    · rw [List.mem_singleton.mp last]
      exact not_importLine_empty
  have strip := stripImports_eq_self others
  refine ⟨text, joined, lines, ?_, others, strip, ?_⟩
  · rintro before name after rfl j line found
    rw [lines]
    exact getElem?_flatMap_chapterLines found before after [""]
  · intro c unit policy found alone own
    rw [c.flatten_alone found alone own policy, chapter, strip]

/-- Two files that begin and end with an import. -/
def importingTexts : NameMap String :=
  .ofList [(⟨"A"⟩, "import './B';\r\na"), (⟨"B"⟩, "\tb\n\timport")]

/-- The text of two files as the text of a third one. -/
theorem importingTexts_keep_lines : ∃ text,
    concatenate importingTexts [⟨"B"⟩, ⟨"A"⟩] = .ok text ∧
    Text.pieces '\n' text =
      ["// File: B", "", "\tb", "", "", "// File: A", "", "", "a", "", ""] ∧
    (Text.pieces '\n' text)[8]? = some "a" ∧
    stripImports text = text ∧
    Compilation.flatten ⟨⟨"C"⟩, .ofList [(⟨"C"⟩, text)], .ofList [(⟨"C"⟩, {})], none⟩ {} = .ok
      { target := ⟨"C"⟩
        order := { names := [⟨"C"⟩], cycles := [], skipped := [] }
        text := "// File: C\n\n" ++ text ++ "\n\n" } := by
  obtain ⟨text, joined, lines, place, -, strip, again⟩ :=
    concatenate_keeps_lines importingTexts [⟨"B"⟩, ⟨"A"⟩] (by decide) (by decide)
  refine ⟨text, joined, lines.trans (by decide), ?_, strip, ?_⟩
  · exact place [⟨"B"⟩] ⟨"A"⟩ [] rfl 1 "a" (by decide)
  · exact again _ {} {} rfl rfl rfl

end FlatText

end ImportFlattening
