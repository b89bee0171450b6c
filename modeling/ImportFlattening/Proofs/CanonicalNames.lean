import ImportFlattening.Proofs.PathSegments

/-! # Canonical names

Whatever a specifier says, resolving it ends with a walk from the top, and a walk keeps none but
proper segments. So it leads to a canonical name. A canonical name is never relative and a walk along
it leaves nothing out, so it resolves to itself in every file.
-/

namespace ImportFlattening

namespace Text

theorem pieces_slash_append (path : String) : pieces '/' ("/" ++ path) = "" :: pieces '/' path := by
  have cut := pieces_append_slash "" path
  rwa [String.empty_append, pieces_empty, List.singleton_append] at cut

theorem isRooted_slash_append (path : String) : isRooted ("/" ++ path) = true := by
  simp [isRooted]

theorem exists_of_isRooted {path : String} (rooted : isRooted path) :
    ∃ rest, path = "/" ++ rest := by
  cases chars : path.toList with
  | nil => simp [isRooted, chars] at rooted
  | cons c cs =>
      obtain rfl : c = '/' := by simpa [isRooted, chars] using rooted
      exact ⟨String.ofList cs, String.toList_injective (by simp [chars])⟩

end Text

namespace SourceName

/-- A proper segment between two slashes. -/
def IsSegment (segment : String) : Prop := IsProper segment ∧ '/' ∉ segment.toList

section Walk

variable {dir segs : List String} {segment : String}

theorem follow_segments (clean : ∀ s ∈ dir, IsSegment s) (free : '/' ∉ segment.toList) :
    ∀ s ∈ follow dir segment, IsSegment s := by
  unfold follow
  split
  case isTrue => exact clean
  case isFalse named =>
    split
    case isTrue => exact fun s member => clean s (List.dropLast_subset _ member)
    case isFalse notUp =>
      push Not at named
      refine List.forall_mem_append.mpr ⟨clean, ?_⟩
      exact List.forall_mem_singleton.mpr ⟨⟨named.1, named.2, notUp⟩, free⟩

theorem walk_segments (clean : ∀ s ∈ dir, IsSegment s) (free : ∀ s ∈ segs, '/' ∉ s.toList) :
    ∀ s ∈ walk dir segs, IsSegment s := by
  induction segs generalizing dir with
  | nil => exact clean
  | cons segment segs ih =>
      obtain ⟨first, others⟩ := List.forall_mem_cons.mp free
      exact ih (follow_segments clean first) others

/-- A walk along a path of segments takes all of them. -/
theorem walk_pieces_ofPieces (clean : ∀ s ∈ segs, IsSegment s) :
    walk [] (Text.pieces '/' (Text.ofPieces '/' segs)) = segs := by
  cases segs with
  | nil => decide
  | cons first rest =>
      rw [Text.pieces_ofPieces (List.cons_ne_nil _ _) fun s member => (clean s member).2,
        walk_proper [] fun s member => (clean s member).1, List.nil_append]

theorem unrooted_ofPieces (clean : ∀ s ∈ segs, IsSegment s) :
    Text.isRooted (Text.ofPieces '/' segs) = false := by
  cases segs with
  | nil => rfl
  | cons first rest =>
      obtain ⟨⟨named, -⟩, free⟩ := clean first List.mem_cons_self
      have unrooted : Text.isRooted first = false := by
        by_contra rooted
        exact free (List.mem_of_head? (by simpa [Text.isRooted] using rooted))
      cases rest with
      | nil => simpa [Text.ofPieces, Text.join] using unrooted
      | cons second rest =>
          have single : Text.ofPieces '/' [first] = first := by simp [Text.ofPieces, Text.join]
          rw [← List.singleton_append, Text.ofPieces_append (List.cons_ne_nil _ _)
            (List.cons_ne_nil _ _), single, String.append_assoc, Text.isRooted_append named]
          exact unrooted

end Walk

section Normalize

variable {name : SourceName}

theorem normalized_segments (path : String) :
    ∀ s ∈ walk [] (Text.pieces '/' path), IsSegment s :=
  walk_segments (fun _ none => absurd none List.not_mem_nil)
    fun _ member => Text.sep_notMem_of_mem_pieces member

theorem normalize_canonical (path : String) : (⟨normalize path⟩ : SourceName).Canonical := by
  refine ⟨_, normalized_segments path, ?_⟩
  unfold normalize
  split
  · exact .inr rfl
  · exact .inl rfl

theorem isRooted_normalize (path : String) :
    Text.isRooted (normalize path) = Text.isRooted path := by
  unfold normalize
  split
  case isTrue rooted => rw [rooted, Text.isRooted_slash_append]
  case isFalse unrooted =>
    rw [unrooted_ofPieces (normalized_segments path)]
    simpa using unrooted

theorem Canonical.normalize_eq (canonical : name.Canonical) : normalize name.text = name.text := by
  obtain ⟨segs, clean, text | text⟩ := canonical
  · rw [text, normalize, walk_pieces_ofPieces clean, unrooted_ofPieces clean]
    rfl
  · rw [text, normalize, Text.pieces_slash_append, walk_empty_cons, walk_pieces_ofPieces clean,
      Text.isRooted_slash_append]
    rfl

theorem Canonical.not_relative (canonical : name.Canonical) : isRelative name.text = false := by
  obtain ⟨segs, clean, text | text⟩ := canonical
  · cases segs with
    | nil =>
        rw [text]
        decide
    | cons first rest =>
        obtain ⟨⟨-, notDot, notUp⟩, -⟩ := clean first List.mem_cons_self
        rw [text, isRelative, Text.pieces_ofPieces (List.cons_ne_nil _ _)
          fun s member => (clean s member).2]
        simp [notDot, notUp]
  · rw [text]
    by_contra relative
    have unrooted := unrooted_of_isRelative (by simpa using relative)
    rw [Text.isRooted_slash_append] at unrooted
    cases unrooted

end Normalize

section Resolve

variable {name : SourceName} {specifier : String}

theorem resolve_not_relative (name : SourceName) (absolute : isRelative specifier = false) :
    name.resolve specifier = ⟨normalize specifier⟩ := by
  simp [resolve, absolute]

theorem rooted_directory (rooted : Text.isRooted name.text) : Text.isRooted name.directory := by
  obtain ⟨dir, file, segments⟩ := name.segments_eq_concat
  have nested : dir ≠ [] := by
    rintro rfl
    obtain ⟨rest, text⟩ := Text.exists_of_isRooted rooted
    have two := Text.pieces_slash_append rest
    rw [← text] at two
    have none := (List.cons.inj (segments.symm.trans two)).2
    exact Text.pieces_ne_nil '/' rest none.symm
  unfold directory
  split
  case h_1 single =>
    rw [segments] at single
    cases dir with
    | nil => exact absurd rfl nested
    | cons => simp at single
  case h_2 =>
    simp only [segments, List.dropLast_concat]
    split
    case isTrue => rfl
    case isFalse inside =>
      rwa [text_eq_ofPieces segments nested, String.append_assoc,
        Text.isRooted_append inside] at rooted

theorem isRooted_directory (name : SourceName) :
    Text.isRooted name.directory = Text.isRooted name.text := by
  cases rooted : Text.isRooted name.text with
  | false => exact unrooted_directory rooted
  | true => exact rooted_directory rooted

theorem isRooted_resolve (name : SourceName) (specifier : String) :
    Text.isRooted (name.resolve specifier).text =
      if isRelative specifier then Text.isRooted name.text else Text.isRooted specifier := by
  unfold resolve
  split
  case isTrue relative =>
    rw [isRooted_normalize, ← isRooted_directory name]
    split
    case isTrue top =>
      rw [top, unrooted_of_isRelative relative]
      rfl
    case isFalse nested => rw [String.append_assoc, Text.isRooted_append nested]
  case isFalse => rw [isRooted_normalize]

theorem Canonical.resolve_eq (canonical : name.Canonical) (importer : SourceName) :
    importer.resolve name.text = name := by
  rw [resolve_not_relative importer canonical.not_relative, canonical.normalize_eq]

theorem resolve_canonical (importer : SourceName) (specifier : String) :
    (importer.resolve specifier).Canonical := by
  unfold resolve
  split
  · exact normalize_canonical _
  · exact normalize_canonical _

/-- Every specifier resolves to a canonical name, which begins at the root if the importer does,
where the specifier is relative, and else if the specifier does. Resolving it again changes nothing,
in whatever file, since canonical names stand for themselves everywhere. -/
theorem resolve_reaches_fixed_names (importer : SourceName) (specifier : String) :
    (importer.resolve specifier).Canonical ∧
    (Text.isRooted (importer.resolve specifier).text ↔
      isRelative specifier ∧ Text.isRooted importer.text ∨
      ¬ isRelative specifier ∧ Text.isRooted specifier) ∧
    (∀ other : SourceName,
      other.resolve (importer.resolve specifier).text = importer.resolve specifier) ∧
    ∀ name : SourceName, name.Canonical → ∀ other : SourceName, other.resolve name.text = name := by
  have canonical := resolve_canonical importer specifier
  refine ⟨canonical, ?_, canonical.resolve_eq, fun _ fixed => fixed.resolve_eq⟩
  rw [isRooted_resolve]
  split
  case isTrue relative => simp [relative]
  case isFalse absolute => simp [absolute]

/-- Going up from the root stays there, and three dots are a file like any other. -/
theorem resolve_above_root :
    (⟨"/src/A.sol"⟩ : SourceName).resolve "../..//lib/./B.sol" = ⟨"/lib/B.sol"⟩ ∧
    Text.isRooted "/lib/B.sol" ∧
    (⟨"src/C.sol"⟩ : SourceName).resolve "/lib/B.sol" = ⟨"/lib/B.sol"⟩ ∧
    (⟨"lib/..."⟩ : SourceName).Canonical ∧
    (⟨"/src/A.sol"⟩ : SourceName).resolve "lib/..." = ⟨"lib/..."⟩ := by
  have reached : (⟨"/src/A.sol"⟩ : SourceName).resolve "../..//lib/./B.sol" = ⟨"/lib/B.sol"⟩ := by
    decide
  have canonical : (⟨"lib/..."⟩ : SourceName).Canonical := ⟨["lib", "..."], by decide, .inl rfl⟩
  obtain ⟨-, rooted, again, fixed⟩ :=
    resolve_reaches_fixed_names ⟨"/src/A.sol"⟩ "../..//lib/./B.sol"
  rw [reached] at rooted again
  exact ⟨reached, rooted.mpr (.inl (by decide)), again _, canonical, fixed _ canonical _⟩

end Resolve

end SourceName

end ImportFlattening
