import ImportFlattening.SourceName.Resolve
import Mathlib.Data.List.Induction

/-! # Segments of a path

Cutting a text at a character and putting the pieces together again are inverse to each other, and a
separator between two texts is a cut between their pieces. So a relative specifier is resolved by
following its segments after those of the importer's directory (`SourceName.resolve_relative`).
-/

namespace ImportFlattening

namespace Text

section Characters

variable {sep c : Char} {cs as bs : List Char} {ps qs : List (List Char)}

theorem split_ne_nil (sep : Char) (cs : List Char) : split sep cs ≠ [] := by
  cases cs with
  | nil => simp [split]
  | cons c cs =>
      change splitStep sep c (split sep cs) ≠ []
      unfold splitStep
      split <;> split <;> simp

theorem split_cons_sep (sep : Char) (cs : List Char) :
    split sep (sep :: cs) = [] :: split sep cs := by
  change splitStep sep sep (split sep cs) = _
  cases shape : split sep cs with
  | nil => exact absurd shape (split_ne_nil sep cs)
  | cons piece pieces => simp [splitStep]

theorem split_cons_ne (other : c ≠ sep) {piece : List Char} (shape : split sep cs = piece :: ps) :
    split sep (c :: cs) = (c :: piece) :: ps := by
  change splitStep sep c (split sep cs) = _
  rw [shape]
  simp [splitStep, other]

theorem split_append_sep (sep : Char) (as bs : List Char) :
    split sep (as ++ sep :: bs) = split sep as ++ split sep bs := by
  induction as with
  | nil => exact split_cons_sep sep bs
  | cons a as ih =>
      by_cases same : a = sep
      · subst same
        rw [List.cons_append, split_cons_sep, split_cons_sep, ih, List.cons_append]
      · cases shape : split sep as with
        | nil => exact absurd shape (split_ne_nil sep as)
        | cons piece pieces =>
            rw [shape, List.cons_append] at ih
            rw [List.cons_append, split_cons_ne same ih, split_cons_ne same shape, List.cons_append]

theorem split_of_notMem (absent : sep ∉ cs) : split sep cs = [cs] := by
  induction cs with
  | nil => rfl
  | cons c cs ih =>
      obtain ⟨other, rest⟩ := List.ne_and_not_mem_of_not_mem_cons absent
      exact split_cons_ne (Ne.symm other) (ih rest)

theorem sep_notMem_of_mem_split {piece : List Char} (member : piece ∈ split sep cs) :
    sep ∉ piece := by
  induction cs generalizing piece with
  | nil =>
      obtain rfl := List.mem_singleton.mp member
      exact List.not_mem_nil
  | cons c cs ih =>
      by_cases same : c = sep
      · subst same
        rw [split_cons_sep] at member
        rcases List.mem_cons.mp member with rfl | later
        · exact List.not_mem_nil
        · exact ih later
      · cases shape : split sep cs with
        | nil => exact absurd shape (split_ne_nil sep cs)
        | cons first pieces =>
            rw [split_cons_ne same shape] at member
            rw [shape] at ih
            rcases List.mem_cons.mp member with rfl | later
            · exact List.not_mem_cons_of_ne_of_not_mem (Ne.symm same) (ih List.mem_cons_self)
            · exact ih (List.mem_cons_of_mem _ later)

theorem join_append (sep : Char) (nonempty : ps ≠ []) (nonempty' : qs ≠ []) :
    join sep (ps ++ qs) = join sep ps ++ sep :: join sep qs := by
  induction ps with
  | nil => exact absurd rfl nonempty
  | cons p ps ih =>
      cases ps with
      | nil =>
          cases qs with
          | nil => exact absurd rfl nonempty'
          | cons q qs => simp [join]
      | cons p' ps =>
          have tail := ih (List.cons_ne_nil _ _)
          simp only [join, List.cons_append, List.intercalate_cons_cons, List.append_assoc] at tail ⊢
          rw [tail]

theorem join_split (sep : Char) (cs : List Char) : join sep (split sep cs) = cs := by
  induction cs with
  | nil => rfl
  | cons c cs ih =>
      by_cases same : c = sep
      · subst same
        have cut := join_append c (List.cons_ne_nil [] []) (split_ne_nil c cs)
        rw [split_cons_sep, ← List.singleton_append, cut, ih]
        rfl
      · cases shape : split sep cs with
        | nil => exact absurd shape (split_ne_nil sep cs)
        | cons piece pieces =>
            rw [shape] at ih
            rw [split_cons_ne same shape, ← ih]
            cases pieces with
            | nil => simp [join]
            | cons next pieces => simp [join]

theorem split_join (nonempty : ps ≠ []) (clean : ∀ piece ∈ ps, sep ∉ piece) :
    split sep (join sep ps) = ps := by
  induction ps with
  | nil => exact absurd rfl nonempty
  | cons p ps ih =>
      obtain ⟨first, others⟩ := List.forall_mem_cons.mp clean
      cases ps with
      | nil => simpa [join] using split_of_notMem first
      | cons p' ps =>
          have cut := join_append sep (List.cons_ne_nil p []) (List.cons_ne_nil p' ps)
          have single : join sep [p] = p := by simp [join]
          rw [single, List.singleton_append] at cut
          rw [cut, split_append_sep, split_of_notMem first, ih (List.cons_ne_nil _ _) others]
          rfl

end Characters

section Strings

variable {sep : Char} {a b : String} {ps qs : List String}

theorem pieces_ne_nil (sep : Char) (s : String) : pieces sep s ≠ [] := by
  simp [pieces, split_ne_nil]

theorem pieces_append_sep (sep : Char) (a b : String) :
    pieces sep (a ++ String.singleton sep ++ b) = pieces sep a ++ pieces sep b := by
  simp only [pieces, String.toList_append, String.toList_singleton, List.append_assoc,
    List.singleton_append, split_append_sep, List.map_append]

theorem pieces_append_slash (a b : String) :
    pieces '/' (a ++ "/" ++ b) = pieces '/' a ++ pieces '/' b :=
  pieces_append_sep '/' a b

theorem ofPieces_append_sep (sep : Char) (nonempty : ps ≠ []) (nonempty' : qs ≠ []) :
    ofPieces sep (ps ++ qs) = ofPieces sep ps ++ String.singleton sep ++ ofPieces sep qs := by
  apply String.toList_injective
  simp only [ofPieces, List.map_append]
  rw [join_append sep (by simpa using nonempty) (by simpa using nonempty')]
  simp

theorem ofPieces_append (nonempty : ps ≠ []) (nonempty' : qs ≠ []) :
    ofPieces '/' (ps ++ qs) = ofPieces '/' ps ++ "/" ++ ofPieces '/' qs :=
  ofPieces_append_sep '/' nonempty nonempty'

theorem ofPieces_pieces (sep : Char) (s : String) : ofPieces sep (pieces sep s) = s := by
  simp [ofPieces, pieces, Function.comp_def, join_split]

theorem pieces_ofPieces (nonempty : ps ≠ []) (clean : ∀ piece ∈ ps, sep ∉ piece.toList) :
    pieces sep (ofPieces sep ps) = ps := by
  have split : split sep (join sep (ps.map String.toList)) = ps.map String.toList := by
    apply split_join
    · simpa using nonempty
    · intro piece member
      obtain ⟨p, among, rfl⟩ := List.mem_map.mp member
      exact clean p among
  simp [pieces, ofPieces, split]

theorem sep_notMem_of_mem_pieces {piece s : String} (member : piece ∈ pieces sep s) :
    sep ∉ piece.toList := by
  obtain ⟨p, among, rfl⟩ := List.mem_map.mp member
  simpa using sep_notMem_of_mem_split among

@[simp] theorem pieces_empty (sep : Char) : pieces sep "" = [""] := rfl

theorem isRooted_append (nonempty : a ≠ "") : isRooted (a ++ b) = isRooted a := by
  have chars : a.toList ≠ [] := by simpa using nonempty
  cases shape : a.toList with
  | nil => exact absurd shape chars
  | cons c cs => simp [isRooted, shape]

end Strings

end Text

namespace SourceName

/-- A segment that names something below the directory it is read in. -/
def IsProper (segment : String) : Prop := segment ≠ "" ∧ segment ≠ "." ∧ segment ≠ ".."

instance (segment : String) : Decidable (IsProper segment) :=
  inferInstanceAs (Decidable (segment ≠ "" ∧ segment ≠ "." ∧ segment ≠ ".."))

/-- The name consists of proper segments, perhaps none, after a leading slash or without one. -/
def Canonical (name : SourceName) : Prop :=
  ∃ segs : List String, (∀ s ∈ segs, IsProper s ∧ '/' ∉ s.toList) ∧
    (name.text = Text.ofPieces '/' segs ∨ name.text = "/" ++ Text.ofPieces '/' segs)

/-- Where the segments are followed from the top, none of them goes up from there. -/
def NeverAbove (segs : List String) : Prop :=
  ∀ n < segs.length, segs[n]? = some ".." → walk [] (segs.take n) ≠ []

instance (segs : List String) : Decidable (NeverAbove segs) :=
  inferInstanceAs (Decidable (∀ n < segs.length, segs[n]? = some ".." → walk [] (segs.take n) ≠ []))

section Walk

variable {start segs : List String} {segment : String}

theorem walk_append (start left right : List String) :
    walk start (left ++ right) = walk (walk start left) right :=
  List.foldl_append

theorem walk_concat (start segs : List String) (segment : String) :
    walk start (segs ++ [segment]) = follow (walk start segs) segment := by
  rw [walk_append]
  rfl

theorem walk_empty_cons (start segs : List String) : walk start ("" :: segs) = walk start segs := by
  have stay : follow start "" = start := by simp [follow]
  change walk (follow start "") segs = walk start segs
  rw [stay]

theorem follow_proper (dir : List String) (proper : IsProper segment) :
    follow dir segment = dir ++ [segment] := by
  obtain ⟨notEmpty, notDot, notUp⟩ := proper
  simp [follow, notEmpty, notDot, notUp]

theorem walk_proper (start : List String) (proper : ∀ s ∈ segs, IsProper s) :
    walk start segs = start ++ segs := by
  induction segs using List.reverseRecOn with
  | nil => simp [walk]
  | append_singleton segs segment ih =>
      rw [walk_concat, ih fun s member => proper s (List.mem_append_left _ member),
        follow_proper _ (proper segment (by simp)), List.append_assoc]

theorem NeverAbove.of_append {right : List String} (below : NeverAbove (segs ++ right)) :
    NeverAbove segs := by
  intro n bound up
  have later := below n (by rw [List.length_append]; omega)
  rw [List.getElem?_append_left bound, List.take_append_of_le_length (Nat.le_of_lt bound)] at later
  exact later up

theorem NeverAbove.last (below : NeverAbove (segs ++ [".."])) : walk [] segs ≠ [] := by
  have inside := below segs.length (by simp)
  rw [List.take_left] at inside
  exact inside (by simp)

/-- Segments that never lead above the top do from any directory what they do from the top. -/
theorem NeverAbove.walk_eq (below : NeverAbove segs) (start : List String) :
    walk start segs = start ++ walk [] segs := by
  induction segs using List.reverseRecOn with
  | nil => simp [walk]
  | append_singleton segs segment ih =>
      rw [walk_concat, walk_concat, ih below.of_append]
      unfold follow
      split
      · rfl
      · split
        case isTrue up =>
          subst up
          rw [List.dropLast_append_of_ne_nil below.last]
        case isFalse => rw [List.append_assoc]

end Walk

section Resolve

variable {name : SourceName} {specifier : String}

theorem segments_eq_concat (name : SourceName) :
    ∃ dir file, name.segments = dir ++ [file] := by
  rcases List.eq_nil_or_concat name.segments with none | ⟨dir, file, segments⟩
  · exact absurd none (Text.pieces_ne_nil '/' name.text)
  · exact ⟨dir, file, by simpa using segments⟩

theorem text_eq_ofPieces {dir : List String} {file : String}
    (segments : name.segments = dir ++ [file]) (nested : dir ≠ []) :
    name.text = Text.ofPieces '/' dir ++ "/" ++ file := by
  have whole : Text.ofPieces '/' name.segments = name.text := Text.ofPieces_pieces '/' name.text
  have single : Text.ofPieces '/' [file] = file := by simp [Text.ofPieces, Text.join]
  rw [segments, Text.ofPieces_append nested (List.cons_ne_nil _ _), single] at whole
  exact whole.symm

theorem ofPieces_ne_empty {dir : List String} {file : String}
    (unrooted : Text.isRooted name.text = false) (segments : name.segments = dir ++ [file])
    (nested : dir ≠ []) : Text.ofPieces '/' dir ≠ "" := by
  intro empty
  rw [text_eq_ofPieces segments nested, empty] at unrooted
  simp [Text.isRooted] at unrooted

theorem directory_eq (unrooted : Text.isRooted name.text = false) :
    name.directory = Text.ofPieces '/' name.segments.dropLast := by
  obtain ⟨dir, file, segments⟩ := name.segments_eq_concat
  rw [segments, List.dropLast_concat]
  cases dir with
  | nil =>
      simp only [directory, segments, List.nil_append]
      rfl
  | cons first rest =>
      have inside := ofPieces_ne_empty unrooted segments (List.cons_ne_nil _ _)
      unfold directory
      split
      case h_1 single => simp [segments] at single
      case h_2 => simp only [segments, List.dropLast_concat, if_neg inside]

theorem unrooted_directory (unrooted : Text.isRooted name.text = false) :
    Text.isRooted name.directory = false := by
  obtain ⟨dir, file, segments⟩ := name.segments_eq_concat
  rw [directory_eq unrooted, segments, List.dropLast_concat]
  cases dir with
  | nil => rfl
  | cons first rest =>
      have nested : first :: rest ≠ [] := List.cons_ne_nil _ _
      have inside := ofPieces_ne_empty unrooted segments nested
      rwa [text_eq_ofPieces segments nested, String.append_assoc,
        Text.isRooted_append inside] at unrooted

/-- The pieces of a directory lead where the segments before the file's own do. -/
theorem walk_directory (name : SourceName) (start rest : List String) :
    walk start (Text.pieces '/' name.directory ++ rest) =
      walk start (name.segments.dropLast ++ rest) := by
  unfold directory
  split
  case h_1 single =>
    -- no directory has one empty piece, and following it leads nowhere else
    rw [single]
    exact walk_empty_cons start rest
  case h_2 several =>
    have nested : name.segments.dropLast ≠ [] := by
      obtain ⟨dir, file, segments⟩ := name.segments_eq_concat
      intro none
      rw [segments, List.dropLast_concat] at none
      exact several file (by rw [segments, none]; rfl)
    have cut := Text.pieces_ofPieces nested fun piece member =>
      Text.sep_notMem_of_mem_pieces (List.dropLast_subset _ member)
    dsimp only
    split
    case isTrue top =>
      -- the root has two pieces, as empty as the one before a leading slash
      rw [top] at cut
      rw [← cut]
      exact walk_empty_cons start ("" :: rest)
    case isFalse => rw [cut]

theorem unrooted_of_isRelative (relative : isRelative specifier) :
    Text.isRooted specifier = false := by
  cases chars : specifier.toList with
  | nil => simp [Text.isRooted, chars]
  | cons c cs =>
      have other : c ≠ '/' := by
        rintro rfl
        simp [isRelative, Text.pieces, chars, Text.split_cons_sep] at relative
      simpa [Text.isRooted, chars] using other

/-- A relative specifier is followed after the importer's directory. -/
theorem resolve_relative (unrooted : Text.isRooted name.text = false)
    (relative : isRelative specifier) :
    name.resolve specifier = ⟨Text.ofPieces '/'
      (walk [] (Text.pieces '/' name.directory ++ Text.pieces '/' specifier))⟩ := by
  simp only [resolve, if_pos relative, normalize]
  split
  case isTrue top =>
    have stay : walk [] (Text.pieces '/' "") = [] := by decide
    rw [top, walk_append, stay, unrooted_of_isRelative relative]
    rfl
  case isFalse nested =>
    have start : Text.isRooted (name.directory ++ "/" ++ specifier) = false := by
      rw [String.append_assoc, Text.isRooted_append nested]
      exact unrooted_directory unrooted
    rw [start, Text.pieces_append_slash]
    rfl

end Resolve

end SourceName

end ImportFlattening
