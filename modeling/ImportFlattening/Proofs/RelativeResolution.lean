import ImportFlattening.Proofs.CanonicalNames

/-! # Walking from the importer's directory

Resolution cuts the importer's name at its last slash as it is spelled, and joins the specifier to
what stands before. A walk along the two does not care how they are spelled: it comes to the
importer's directory first and goes on from there. So all spellings of an importer that end in the
name of a file resolve a specifier alike.
-/

namespace ImportFlattening

namespace SourceName

/-- The segments of a name without the empty ones, such as stand before a leading slash. -/
def steps (name : SourceName) : List String := name.segments.filter (· ≠ "")

section Steps

variable {name a b : SourceName} {segs : List String}

theorem steps_ofPieces (clean : ∀ s ∈ segs, IsSegment s) :
    steps ⟨Text.ofPieces '/' segs⟩ = segs := by
  cases segs with
  | nil => rfl
  | cons first rest =>
      have cut := Text.pieces_ofPieces (List.cons_ne_nil first rest)
        fun s member => (clean s member).2
      rw [steps, segments, cut, List.filter_eq_self]
      intro s member
      simpa using (clean s member).1.1

theorem steps_slash_append (path : String) : steps ⟨"/" ++ path⟩ = steps ⟨path⟩ := by
  simp only [steps, segments, Text.pieces_slash_append]
  rfl

theorem steps_normalize (path : String) :
    steps ⟨normalize path⟩ = walk [] (Text.pieces '/' path) := by
  have clean := normalized_segments path
  unfold normalize
  split
  · rw [steps_slash_append, steps_ofPieces clean]
  · exact steps_ofPieces clean

theorem Canonical.text_eq (canonical : name.Canonical) :
    name.text = if Text.isRooted name.text then "/" ++ Text.ofPieces '/' name.steps
      else Text.ofPieces '/' name.steps := by
  obtain ⟨text⟩ := name
  obtain ⟨segs, clean, rfl | rfl⟩ := canonical
  · rw [unrooted_ofPieces clean, steps_ofPieces clean]
    rfl
  · rw [Text.isRooted_slash_append, steps_slash_append, steps_ofPieces clean]
    rfl

/-- A canonical name is given by its steps and by whether it starts at the root. -/
theorem Canonical.ext (first : a.Canonical) (second : b.Canonical)
    (rooted : Text.isRooted a.text = Text.isRooted b.text) (steps : a.steps = b.steps) : a = b := by
  have text : a.text = b.text := by rw [first.text_eq, second.text_eq, rooted, steps]
  cases a
  exact congrArg SourceName.mk text

end Steps

section Importer

variable {name : SourceName} {specifier : String}

theorem fileName_eq {dir : List String} {file : String} (segments : name.segments = dir ++ [file]) :
    name.fileName = file := by
  rw [fileName, segments, List.getLastD_concat]

/-- Where the last segment names a file, the walk without it ends in the file's directory. -/
theorem walk_dropLast (named : IsProper name.fileName) :
    walk [] name.segments.dropLast = (walk [] name.segments).dropLast := by
  obtain ⟨dir, file, segments⟩ := name.segments_eq_concat
  rw [fileName_eq segments] at named
  rw [segments, walk_concat, follow_proper _ named, List.dropLast_concat, List.dropLast_concat]

theorem fileName_normalize (named : IsProper name.fileName) :
    fileName ⟨normalize name.text⟩ = name.fileName := by
  obtain ⟨dir, file, segments⟩ := name.segments_eq_concat
  rw [fileName_eq segments] at named ⊢
  have clean := normalized_segments name.text
  have ending : walk [] (Text.pieces '/' name.text) = walk [] dir ++ [file] := by
    change walk [] name.segments = _
    rw [segments, walk_concat, follow_proper _ named]
  rw [ending] at clean
  have cut := Text.pieces_ofPieces (List.concat_ne_nil file (walk [] dir))
    fun s member => (clean s member).2
  unfold normalize
  rw [ending]
  split
  · have rooted : Text.pieces '/' ("/" ++ Text.ofPieces '/' (walk [] dir ++ [file])) =
        ("" :: walk [] dir) ++ [file] := by
      rw [Text.pieces_slash_append, cut, List.cons_append]
    exact fileName_eq rooted
  · exact fileName_eq cut

theorem walk_normalize (path : String) :
    walk [] (Text.pieces '/' (normalize path)) = walk [] (Text.pieces '/' path) := by
  rw [← steps_normalize, (normalize_canonical path).normalize_eq, steps_normalize]

/-- A relative specifier is followed from where the importer's directory leads. -/
theorem steps_resolve (name : SourceName) (relative : isRelative specifier) :
    (name.resolve specifier).steps =
      walk (walk [] name.segments.dropLast) (Text.pieces '/' specifier) := by
  rw [← walk_append, ← walk_directory, resolve, if_pos relative, steps_normalize]
  split
  case isTrue top =>
    rw [top]
    exact (walk_empty_cons _ _).symm
  case isFalse => rw [Text.pieces_append_slash]

theorem resolve_normalize (named : IsProper name.fileName) (specifier : String) :
    name.resolve specifier = (⟨normalize name.text⟩ : SourceName).resolve specifier := by
  refine (resolve_canonical _ _).ext (resolve_canonical _ _) ?_ ?_
  · rw [isRooted_resolve, isRooted_resolve, isRooted_normalize]
  · by_cases relative : isRelative specifier
    · have same : walk [] (segments ⟨normalize name.text⟩) = walk [] name.segments :=
        walk_normalize name.text
      have named' : IsProper (fileName ⟨normalize name.text⟩) := by rwa [fileName_normalize named]
      rw [steps_resolve _ relative, steps_resolve _ relative, walk_dropLast named,
        walk_dropLast named', same]
    · have absolute : isRelative specifier = false := by simpa using relative
      rw [resolve_not_relative _ absolute, resolve_not_relative _ absolute]

/-- Of an importer whose last segment names a file, only the canonical name matters. A relative
specifier is followed segment by segment from the directory of that name, so that all spellings of
one importer resolve every specifier alike. -/
theorem resolve_walks_from_directory (importer : SourceName) (named : IsProper importer.fileName)
    (specifier : String) :
    (isRelative specifier → (importer.resolve specifier).steps =
      walk (steps ⟨normalize importer.text⟩).dropLast (Text.pieces '/' specifier)) ∧
    importer.resolve specifier = (⟨normalize importer.text⟩ : SourceName).resolve specifier ∧
    ∀ other : SourceName, IsProper other.fileName →
      normalize other.text = normalize importer.text →
        other.resolve specifier = importer.resolve specifier := by
  refine ⟨?_, resolve_normalize named specifier, ?_⟩
  · intro relative
    rw [steps_resolve importer relative, steps_normalize]
    exact congrArg (walk · _) (walk_dropLast named)
  · intro other named' same
    rw [resolve_normalize named', same, ← resolve_normalize named]

/-- The importer goes up from the root on its way, and is spelled without detours as well. -/
theorem resolve_from_detour :
    IsProper (fileName ⟨"//src/../.././lib/sub//A.sol"⟩) ∧
    (resolve ⟨"//src/../.././lib/sub//A.sol"⟩ "../..//../B.sol").steps = ["B.sol"] ∧
    resolve ⟨"//src/../.././lib/sub//A.sol"⟩ ".././B.sol" = ⟨"/lib/B.sol"⟩ ∧
    resolve ⟨"/lib/sub/./A.sol"⟩ ".././B.sol" = ⟨"/lib/B.sol"⟩ := by
  have named : IsProper (fileName ⟨"//src/../.././lib/sub//A.sol"⟩) := by decide
  obtain ⟨followed, -, -⟩ := resolve_walks_from_directory _ named "../..//../B.sol"
  obtain ⟨-, respelled, alike⟩ := resolve_walks_from_directory _ named ".././B.sol"
  have canonical : normalize "//src/../.././lib/sub//A.sol" = "/lib/sub/A.sol" := by decide
  have reached : resolve ⟨"/lib/sub/A.sol"⟩ ".././B.sol" = ⟨"/lib/B.sol"⟩ := by decide
  rw [canonical] at followed respelled
  refine ⟨named, (followed (by decide)).trans (by decide), respelled.trans reached, ?_⟩
  exact (alike ⟨"/lib/sub/./A.sol"⟩ (by decide) (by decide)).trans (respelled.trans reached)

end Importer

end SourceName

end ImportFlattening
