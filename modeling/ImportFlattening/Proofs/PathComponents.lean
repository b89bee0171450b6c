import ImportFlattening.Path
import ImportFlattening.Proofs.CanonicalNames
import Mathlib.Data.List.DropRight

/-! # Components of a path

Two spellings of a path have the same components if they differ only in slashes in a row, slashes at
the end and segments `.`. Joining a path to a directory adds its components to those of the
directory, and every path above another has the first few of its components.
-/

namespace ImportFlattening.Path

/-- The segments that name something, be it the directory above. -/
def named (segments : List String) : List String := segments.filter fun segment => !isVoid segment

/-- The root, if the path starts there, and the segments that name something. -/
def components (path : String) : List String :=
  (if Text.isRooted path then ["/"] else []) ++ named (Text.pieces '/' path)

/-- The path starts at the root, or goes up somewhere. -/
def LeadsOut (path : String) : Prop := Text.isRooted path ∨ ".." ∈ Text.pieces '/' path

instance (path : String) : Decidable (LeadsOut path) :=
  inferInstanceAs (Decidable (Text.isRooted path ∨ ".." ∈ Text.pieces '/' path))

theorem escapes_iff (path : String) : escapes path ↔ LeadsOut path := by
  simp [escapes, LeadsOut]

section Named

variable {segments : List String}

theorem named_append (left right : List String) : named (left ++ right) = named left ++ named right :=
  List.filter_append left right

theorem named_cons_void {segment : String} (void : isVoid segment) :
    named (segment :: segments) = named segments :=
  List.filter_cons_of_neg (by simpa using void)

theorem named_eq_filter_isProper (inside : ".." ∉ segments) :
    named segments = segments.filter fun segment => SourceName.IsProper segment := by
  refine List.filter_congr ?_
  intro segment member
  have notUp : segment ≠ ".." := by
    rintro rfl
    exact inside member
  simp [isVoid, SourceName.IsProper, notUp]

theorem trim_append (segments : List String) :
    ∃ void, (∀ segment ∈ void, isVoid segment) ∧ segments = trim segments ++ void := by
  refine ⟨(segments.reverse.takeWhile isVoid).reverse, ?_, ?_⟩
  · intro segment member
    exact List.mem_takeWhile_imp (List.mem_reverse.mp member)
  · rw [trim, ← List.reverse_append, List.takeWhile_append_dropWhile, List.reverse_reverse]

theorem trim_isPrefix (segments : List String) : trim segments <+: segments := by
  obtain ⟨void, -, whole⟩ := trim_append segments
  exact ⟨void, whole.symm⟩

theorem named_trim (segments : List String) : named (trim segments) = named segments := by
  obtain ⟨void, nothing, whole⟩ := trim_append segments
  have none : named void = [] := List.filter_eq_nil_iff.mpr (by simpa using nothing)
  calc named (trim segments) = named (trim segments ++ void) := by
        rw [named_append, none, List.append_nil]
    _ = named segments := by rw [← whole]

/-- The last of the segments that are left names something. -/
theorem named_eq_concat (nonempty : trim segments ≠ []) :
    named segments = named (trim segments).dropLast ++ [(trim segments).getLast nonempty] := by
  have last : isVoid ((trim segments).getLast nonempty) = false :=
    Bool.eq_false_iff.mpr (List.rdropWhile_last_not isVoid segments nonempty)
  have kept : named [(trim segments).getLast nonempty] = [(trim segments).getLast nonempty] := by
    simp [named, last]
  rw [← kept, ← named_append, List.dropLast_append_getLast, named_trim]

end Named

section Join

variable {directory path : String}

theorem join_empty (unrooted : Text.isRooted path = false) : join "" path = path := by
  simp [join, unrooted]

/-- Unless the directory is the empty path, joining puts a slash in between or finds one there. -/
theorem join_eq (nonempty : directory ≠ "") (unrooted : Text.isRooted path = false) :
    ∃ top, join directory path = top ++ "/" ++ path ∧ (directory = top ∨ directory = top ++ "/") := by
  unfold join
  rw [unrooted, if_neg Bool.false_ne_true]
  split
  case isTrue closed =>
    have last : directory.toList.getLast? = some '/' := by simpa [nonempty] using closed
    obtain ⟨chars, spelled⟩ := List.getLast?_eq_some_iff.mp last
    have spelled : directory = String.ofList chars ++ "/" :=
      String.toList_injective (by simpa using spelled)
    exact ⟨String.ofList chars, by rw [← spelled], .inr spelled⟩
  case isFalse => exact ⟨directory, rfl, .inl rfl⟩

theorem isRooted_join (nonempty : directory ≠ "") (unrooted : Text.isRooted path = false) :
    Text.isRooted (join directory path) = Text.isRooted directory := by
  obtain ⟨top, joined, rfl | rfl⟩ := join_eq nonempty unrooted
  · rw [joined, String.append_assoc, Text.isRooted_append nonempty]
  · rw [joined, Text.isRooted_append nonempty]

theorem pieces_concat_slash (top : String) :
    Text.pieces '/' (top ++ "/") = Text.pieces '/' top ++ [""] := by
  have cut := Text.pieces_append_slash top ""
  rwa [String.append_empty, Text.pieces_empty] at cut

theorem components_join (unrooted : Text.isRooted path = false) :
    components (join directory path) = components directory ++ named (Text.pieces '/' path) := by
  by_cases empty : directory = ""
  · subst empty
    rw [join_empty unrooted, components, unrooted]
    rfl
  · obtain ⟨top, joined, same⟩ := join_eq empty unrooted
    have segments : named (Text.pieces '/' directory) = named (Text.pieces '/' top) := by
      rcases same with rfl | rfl
      · rfl
      · rw [pieces_concat_slash, named_append]
        exact List.append_nil _
    rw [components, components, isRooted_join empty unrooted, joined, Text.pieces_append_slash,
      named_append, segments, List.append_assoc]

theorem leadsOut_join (unrooted : Text.isRooted path = false) :
    LeadsOut (join directory path) ↔ LeadsOut directory ∨ LeadsOut path := by
  by_cases empty : directory = ""
  · have inside : ¬ LeadsOut "" := by decide
    rw [empty, join_empty unrooted, or_iff_right inside]
  · obtain ⟨top, joined, same⟩ := join_eq empty unrooted
    have segments : ".." ∈ Text.pieces '/' directory ↔ ".." ∈ Text.pieces '/' top := by
      rcases same with rfl | rfl
      · rfl
      · simp [pieces_concat_slash]
    rw [LeadsOut, LeadsOut, LeadsOut, isRooted_join empty unrooted, joined, Text.pieces_append_slash,
      List.mem_append, segments, unrooted]
    simp [or_assoc]

theorem join_empty_append (unrooted : Text.isRooted path = false) :
    join directory "" ++ path = join directory path := by
  have unrooted' : Text.isRooted "" = false := rfl
  simp only [join, unrooted, unrooted', if_neg Bool.false_ne_true, String.append_empty]
  split <;> rfl

theorem join_closed (directory : String) : join (join directory "") "" = join directory "" := by
  by_cases closed : directory = "" ∨ directory.toList.getLast? = some '/'
  · simp [join, Text.isRooted, closed]
  · simp [join, Text.isRooted, closed]

theorem join_append (front : String) (nonempty : directory ≠ "")
    (unrooted : Text.isRooted path = false) :
    join (front ++ directory) path = front ++ join directory path := by
  by_cases closed : directory.toList.getLast? = some '/'
  · simp [join, unrooted, closed, String.append_assoc]
  · simp [join, unrooted, closed, nonempty, String.append_assoc]

/-- A path below a directory, joined to a third, is below the joined directory. -/
theorem join_join {top : String} (unrooted : Text.isRooted directory = false)
    (unrooted' : Text.isRooted path = false) :
    join (join top directory) path = join top (join directory path) := by
  by_cases empty : directory = ""
  · calc join (join top directory) path = join (join top "") path := by rw [empty]
      _ = join (join top "") "" ++ path := (join_empty_append unrooted').symm
      _ = join top "" ++ path := by rw [join_closed]
      _ = join top path := join_empty_append unrooted'
      _ = join top (join directory path) := by rw [empty, join_empty unrooted']
  · have unrooted'' : Text.isRooted (join directory path) = false := by
      rw [isRooted_join empty unrooted', unrooted]
    calc join (join top directory) path = join (join top "" ++ directory) path := by
          rw [join_empty_append unrooted]
      _ = join top "" ++ join directory path := join_append _ empty unrooted'
      _ = join top (join directory path) := join_empty_append unrooted''

end Join

section Plain

variable {name : String}

theorem unrooted_of_notMem (plain : '/' ∉ name.toList) : Text.isRooted name = false := by
  by_contra rooted
  exact plain (List.mem_of_head? (by simpa [Text.isRooted] using rooted))

theorem pieces_of_notMem (plain : '/' ∉ name.toList) : Text.pieces '/' name = [name] := by
  simp [Text.pieces, Text.split_of_notMem plain]

theorem leadsOut_iff_of_notMem (plain : '/' ∉ name.toList) : LeadsOut name ↔ name = ".." := by
  rw [LeadsOut, unrooted_of_notMem plain, pieces_of_notMem plain, List.mem_singleton,
    or_iff_right Bool.false_ne_true]
  exact eq_comm

theorem named_pieces_of_isSegment (segment : SourceName.IsSegment name) :
    named (Text.pieces '/' name) = [name] := by
  obtain ⟨⟨nonempty, notHere, -⟩, plain⟩ := segment
  rw [pieces_of_notMem plain]
  simp [named, isVoid, nonempty, notHere]

end Plain

section Parts

variable {path above : String} {start : Start} {segments : List String}

/-- The component that a start stands for. -/
def Start.components : Start → List String
  | .root => ["/"]
  | .here | .none => []

/-- The spelling of the start and the segments can be read back: no slash stands in a segment, and
none comes first unless the start is the root. -/
structure Readable (start : Start) (segments : List String) : Prop where
  free : ∀ segment ∈ segments, '/' ∉ segment.toList
  opened : start = .none → segments.head? ≠ some ""

theorem Readable.of_isPrefix {front : List String} (readable : Readable start segments)
    (cut : front <+: segments) : Readable start front where
  free := fun segment member => readable.free segment (cut.subset member)
  opened := by
    intro bare first
    obtain ⟨rest, rfl⟩ := cut
    exact readable.opened bare (by rw [List.head?_append, first]; rfl)

theorem readable_parts (path : String) : Readable (parts path).1 (parts path).2 := by
  have free : ∀ segment ∈ Text.pieces '/' path, '/' ∉ segment.toList :=
    fun _ member => Text.sep_notMem_of_mem_pieces member
  unfold parts
  split
  case h_1 => exact ⟨by simp, by simp⟩
  case h_2 segments more cut =>
    exact ⟨fun segment member => free segment (cut ▸ List.mem_cons_of_mem _ member), nofun⟩
  case h_3 segments cut =>
    exact ⟨fun segment member => free segment (cut ▸ List.mem_cons_of_mem _ member), nofun⟩
  case h_4 opened _ =>
    refine ⟨free, ?_⟩
    intro _ first
    obtain ⟨rest, cut⟩ := List.head?_eq_some_iff.mp first
    exact opened rest cut

theorem ofParts_parts (path : String) : ofParts (parts path).1 (parts path).2 = path := by
  have spelled := Text.ofPieces_pieces '/' path
  unfold parts
  split
  case h_1 cut =>
    rw [cut] at spelled
    exact spelled
  case h_2 segments more cut =>
    have slash := Text.ofPieces_append (List.cons_ne_nil "" []) more
    rw [List.singleton_append, ← cut, spelled] at slash
    exact slash.symm
  case h_3 segments cut =>
    rw [cut] at spelled
    exact spelled
  case h_4 => exact spelled

theorem unrooted_of_pieces {first : String} (cut : Text.pieces '/' path = first :: segments)
    (opened : first ≠ "") : Text.isRooted path = false := by
  by_contra rooted
  obtain ⟨below, rfl⟩ := Text.exists_of_isRooted (by simpa using rooted)
  rw [Text.pieces_slash_append] at cut
  exact opened (List.cons.inj cut).1.symm

theorem components_ofParts (readable : Readable start segments) :
    components (ofParts start segments) = start.components ++ named segments := by
  cases start with
  | root =>
      have void : named (Text.pieces '/' (Text.ofPieces '/' segments)) = named segments := by
        cases segments with
        | nil => rfl
        | cons first rest => rw [Text.pieces_ofPieces (List.cons_ne_nil _ _) readable.free]
      rw [ofParts, components, Text.isRooted_slash_append, Text.pieces_slash_append,
        named_cons_void rfl, void]
      rfl
  | here =>
      have cut : Text.pieces '/' (ofParts .here segments) = "." :: segments :=
        Text.pieces_ofPieces (List.cons_ne_nil _ _)
          (List.forall_mem_cons.mpr ⟨by decide, readable.free⟩)
      rw [components, unrooted_of_pieces cut (by decide), cut]
      rfl
  | none =>
      cases segments with
      | nil => rfl
      | cons first rest =>
          have cut : Text.pieces '/' (ofParts .none (first :: rest)) = first :: rest :=
            Text.pieces_ofPieces (List.cons_ne_nil _ _) readable.free
          rw [components, unrooted_of_pieces cut (by simpa using readable.opened rfl), cut]
          rfl

theorem components_eq_parts (path : String) :
    components path = (parts path).1.components ++ named (parts path).2 := by
  rw [← components_ofParts (readable_parts path), ofParts_parts]

end Parts

section Ancestors

variable {path above : String}

/-- Going up leaves out the last component. -/
theorem components_parent? (parent : parent? path = some above) :
    components above = (components path).dropLast := by
  unfold parent? at parent
  have whole := components_eq_parts path
  have readable := readable_parts path
  generalize parts path = cut at parent whole readable
  obtain ⟨start, segments⟩ := cut
  simp only at parent whole readable
  rw [whole]
  split at parent
  case h_1 none =>
    split at parent
    case isTrue here =>
      cases parent
      rw [here, ← named_trim, none]
      rfl
    case isFalse => cases parent
  case h_2 nonempty =>
    cases parent
    have front : trim (trim segments).dropLast <+: segments :=
      (trim_isPrefix _).trans ((List.dropLast_prefix _).trans (trim_isPrefix _))
    rw [components_ofParts (readable.of_isPrefix front), named_trim, named_eq_concat nonempty,
      ← List.append_assoc, List.dropLast_concat]

theorem components_of_mem_ancestorsUpTo {count : Nat} (member : above ∈ ancestorsUpTo count path) :
    components above <+: components path := by
  induction count generalizing path with
  | zero =>
      obtain rfl := List.mem_singleton.mp member
      exact List.prefix_refl _
  | succ count ih =>
      rcases List.mem_cons.mp member with rfl | higher
      · exact List.prefix_refl _
      · split at higher
        case h_1 => cases higher
        case h_2 next parent =>
          exact (ih higher).trans (components_parent? parent ▸ List.dropLast_prefix _)

end Ancestors

end ImportFlattening.Path
