import ImportFlattening.Proofs.CurrentOutput
import ImportFlattening.Proofs.OutputPaths

/-! # Which outputs collide

Of its target an output keeps only the stem, so targets of the same stem share one output, wherever
they are. The suffix lengthens the stem, unless it starts with a point and so leaves the stem as it
is; hence no output has the name of its own target, and no command asks its host to keep a text under
the name of the file that it comes from.
-/

namespace ImportFlattening

open Command (Latest)

namespace SourceName

variable {name : SourceName} {file : String}

/-- `file` is what follows the last slash of the name, or all of it. -/
def EndsIn (name : SourceName) (file : String) : Prop :=
  '/' ∉ file.toList ∧ (name.text = file ∨ ∃ above, name.text = above ++ "/" ++ file)

theorem endsIn_fileName (name : SourceName) : name.EndsIn name.fileName := by
  refine ⟨OutputNaming.slash_notMem_fileName name, ?_⟩
  obtain ⟨dir, file, segments⟩ := name.segments_eq_concat
  rw [fileName_eq segments]
  cases dir with
  | nil =>
      have whole : Text.ofPieces '/' name.segments = name.text := Text.ofPieces_pieces '/' name.text
      left
      rw [← whole, segments]
      simp [Text.ofPieces, Text.join]
  | cons first dir => exact .inr ⟨_, text_eq_ofPieces segments (List.cons_ne_nil _ _)⟩

theorem EndsIn.fileName_eq (ends : name.EndsIn file) : name.fileName = file := by
  obtain ⟨plain, alone | ⟨above, nested⟩⟩ := ends
  · have segments : name.segments = [] ++ [file] := by
      rw [SourceName.segments, alone, Path.pieces_of_notMem plain, List.nil_append]
    exact SourceName.fileName_eq segments
  · have segments : name.segments = Text.pieces '/' above ++ [file] := by
      rw [SourceName.segments, nested, Text.pieces_append_slash, Path.pieces_of_notMem plain]
    exact SourceName.fileName_eq segments

end SourceName

namespace OutputNaming

variable {naming : OutputNaming} {target other : SourceName} {part : String}

/-- `part` is what comes before the first point of the file name, or all of it. -/
def IsStem (file part : String) : Prop :=
  '.' ∉ part.toList ∧ (file = part ∨ ∃ rest, file = part ++ "." ++ rest)

theorem isStem_stem (target : SourceName) : IsStem target.fileName (stem target) := by
  refine ⟨point_notMem_stem target, ?_⟩
  have whole : (stem target).toList ++ target.fileName.toList.dropWhile (· ≠ '.') =
      target.fileName.toList := by
    rw [stem, String.toList_ofList]
    exact List.takeWhile_append_dropWhile
  cases after : target.fileName.toList.dropWhile (· ≠ '.') with
  | nil =>
      left
      rw [after, List.append_nil] at whole
      exact String.toList_injective whole.symm
  | cons c rest =>
      have first := List.head?_dropWhile_not (· ≠ '.') target.fileName.toList
      rw [after] at first
      obtain rfl : c = '.' := by simpa using first
      right
      refine ⟨String.ofList rest, String.toList_injective ?_⟩
      rw [← whole, after]
      simp

theorem IsStem.stem_eq (isStem : IsStem target.fileName part) : stem target = part := by
  obtain ⟨plain, split⟩ := isStem
  have inner : ∀ c ∈ part.toList, decide (c ≠ '.') = true := by
    intro c member
    exact decide_eq_true fun point => plain (point ▸ member)
  apply String.toList_injective
  rw [stem, String.toList_ofList]
  rcases split with whole | ⟨rest, cut⟩
  · rw [whole]
    exact List.takeWhile_eq_self_iff.mpr inner
  · simp only [cut, String.toList_append, List.append_assoc]
    rw [List.takeWhile_append_of_pos inner]
    simp

theorem outputName_eq_iff (naming : OutputNaming) :
    naming.outputName target = naming.outputName other ↔ stem target = stem other := by
  rw [outputName_eq_append, outputName_eq_append, String.append_left_inj]

theorem outputPath_eq_iff :
    naming.outputPath target = naming.outputPath other ↔ stem target = stem other := by
  rw [← outputName_eq_iff naming]
  simp only [outputPath]
  split
  · rfl
  · exact String.append_right_inj _

theorem stem_eq_iff : stem target = stem other ↔
    ∃ file file' part, target.EndsIn file ∧ other.EndsIn file' ∧
      IsStem file part ∧ IsStem file' part := by
  constructor
  · intro same
    have split := isStem_stem other
    rw [← same] at split
    exact ⟨_, _, _, target.endsIn_fileName, other.endsIn_fileName, isStem_stem target, split⟩
  · rintro ⟨file, file', part, ends, ends', split, split'⟩
    rw [← ends.fileName_eq] at split
    rw [← ends'.fileName_eq] at split'
    rw [split.stem_eq, split'.stem_eq]

theorem fileName_outputPath (plain : '/' ∉ (naming.outputName target).toList) :
    SourceName.fileName ⟨naming.outputPath target⟩ = naming.outputName target := by
  apply SourceName.EndsIn.fileName_eq
  refine ⟨plain, ?_⟩
  simp only [outputPath]
  split
  · exact .inl rfl
  · exact .inr ⟨_, rfl⟩

/-- Where the stem of the target ends, the suffix goes on with something else than a point. -/
theorem outputName_ne_fileName (suffixed : naming.suffix ≠ "")
    (pointless : naming.suffix.toList.head? ≠ some '.') (target : SourceName) :
    naming.outputName target ≠ target.fileName := by
  intro same
  obtain ⟨-, split⟩ := isStem_stem target
  cases shape : naming.suffix.toList with
  | nil => exact suffixed (String.toList_eq_nil_iff.mp shape)
  | cons c cs =>
      -- if the names were the same, the suffix would start where the target has its point or its end
      rw [← same, outputName_eq_append] at split
      rcases split with whole | ⟨rest, cut⟩
      · have characters := congrArg String.toList whole
        simp [shape] at characters
      · have characters := congrArg String.toList cut
        obtain ⟨rfl, -⟩ : c = '.' ∧ _ := by simpa [shape] using characters
        exact pointless (by rw [shape, List.head?_cons])

theorem outputPath_ne_text (plainSuffix : '/' ∉ naming.suffix.toList)
    (plainExtension : '/' ∉ naming.extension.toList) (suffixed : naming.suffix ≠ "")
    (pointless : naming.suffix.toList.head? ≠ some '.') (target : SourceName) :
    naming.outputPath target ≠ target.text := by
  intro same
  have named := fileName_outputPath (slash_notMem_outputName plainSuffix plainExtension target)
  rw [same] at named
  exact outputName_ne_fileName suffixed pointless target named.symm

/-- Two targets have the same output if and only if their last segments have the same part before
the first point. Unless the suffix is empty or starts with a point, the output is never the target
itself; so whenever a session that flattens or saves names a file to its host, it is not the target
of the compilation that it works on. -/
theorem outputs_collide_by_stem (naming : OutputNaming) :
    (∀ target other, naming.outputPath target = naming.outputPath other ↔
      ∃ file file' part, target.EndsIn file ∧ other.EndsIn file' ∧
        IsStem file part ∧ IsStem file' part) ∧
    ('/' ∉ naming.suffix.toList → '/' ∉ naming.extension.toList → naming.suffix ≠ "" →
      naming.suffix.toList.head? ≠ some '.' →
      (∀ target, naming.outputPath target ≠ target.text) ∧
      ∀ {σ : Type} (host : Host (StateM σ)) (policy : Policy) (commands : List Command) (w : σ),
        let config : Config := { policy, naming }
        (Session.run host.journalled config commands {} ([], w)).2.1 =
          (Session.record host config commands {} w).flatMap JournalEntry.exchanges ∧
        ∀ before entry later,
          Session.record host config commands {} w = before ++ entry :: later →
          ∀ path text answer, ⟨.file path text, answer⟩ ∈ entry.exchanges →
            ∃ c since, Latest ((before ++ [entry]).map JournalEntry.command) c since ∧
              path = naming.outputPath c.target ∧ path ≠ c.target.text) := by
  constructor
  · intro target other
    rw [outputPath_eq_iff, stem_eq_iff]
  · intro plainSuffix plainExtension suffixed pointless
    have elsewhere := outputPath_ne_text plainSuffix plainExtension suffixed pointless
    refine ⟨elsewhere, ?_⟩
    intro σ host policy commands w config
    have journal := Session.run_journal host config {} w commands []
    rw [List.nil_append] at journal
    refine ⟨journal, ?_⟩
    intro before entry later split path text answer member
    obtain ⟨c, since, f, latest, -, rfl, -⟩ := Session.current_of_record split _ member
    exact ⟨c, since, latest, rfl, elsewhere c.target⟩

theorem browser_outputs_elsewhere :
    outputPath {} ⟨"browser/A.sol"⟩ = outputPath {} ⟨"lib/A.v2.sol"⟩ ∧
    ('/' ∉ "_flat".toList ∧ '/' ∉ "sol".toList ∧ "_flat" ≠ "" ∧ "_flat".toList.head? ≠ some '.') ∧
    outputPath {} ⟨"browser/A_flat.sol"⟩ ≠ "browser/A_flat.sol" ∧
    ∃ entry ∈ Session.record Session.alertless {} Session.flattenChained {} (),
      ⟨.file "browser/A_flat.sol" Session.chainedText, .ok ()⟩ ∈ entry.exchanges ∧
      ∃ c since, Latest Session.flattenChained c since ∧
        "browser/A_flat.sol" = outputPath {} c.target ∧ "browser/A_flat.sol" ≠ c.target.text := by
  obtain ⟨collide, apart⟩ := outputs_collide_by_stem {}
  have usual : '/' ∉ "_flat".toList ∧ '/' ∉ "sol".toList ∧ "_flat" ≠ "" ∧
      "_flat".toList.head? ≠ some '.' := by decide
  obtain ⟨elsewhere, sessions⟩ := apart usual.1 usual.2.1 usual.2.2.1 usual.2.2.2
  obtain ⟨-, named⟩ := sessions Session.alertless {} Session.flattenChained ()
  have delivered := named [_] _ [] Session.record_alertless _ _ _ (.tail _ (.head _))
  refine ⟨(collide _ _).mpr ⟨"A.sol", "A.v2.sol", "A", ?_, ?_, ?_, ?_⟩, usual, elsewhere _, ?_⟩
  · exact ⟨by decide, .inr ⟨"browser", by decide⟩⟩
  · exact ⟨by decide, .inr ⟨"lib", by decide⟩⟩
  · exact ⟨by decide, .inr ⟨"sol", by decide⟩⟩
  · exact ⟨by decide, .inr ⟨"v2.sol", by decide⟩⟩
  · rw [Session.record_alertless]
    exact ⟨_, .tail _ (.head _), .tail _ (.head _), delivered⟩

/-- A suffix that starts with a point would not do: what has been written comes out again under its
own name. -/
example : outputPath { directory := "out", suffix := ".flat" } ⟨"out/A.flat.sol"⟩ =
    "out/A.flat.sol" := by
  decide

end OutputNaming

end ImportFlattening
