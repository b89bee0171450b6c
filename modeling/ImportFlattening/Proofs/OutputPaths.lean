import ImportFlattening.OutputNaming
import ImportFlattening.Proofs.PathComponents
import ImportFlattening.Proofs.RelativeResolution

/-! # The path of an output

The name of an output is one segment, whatever its target is called: only the last segment of the
target goes into it, and of this only what comes before the first point. So the output is a file
directly in the configured directory (`OutputNaming.outputPath_eq_join`), and its path leads out only
if the directory does, or if the suffix and the extension make up `..` without the target's help.
-/

namespace ImportFlattening.OutputNaming

variable {naming : OutputNaming} {target : SourceName}

section Stem

theorem slash_notMem_fileName (target : SourceName) : '/' ∉ target.fileName.toList := by
  obtain ⟨dir, file, segments⟩ := target.segments_eq_concat
  have member : file ∈ target.segments := by simp [segments]
  rw [SourceName.fileName_eq segments]
  exact Text.sep_notMem_of_mem_pieces member

theorem slash_notMem_stem (target : SourceName) : '/' ∉ (stem target).toList := by
  rw [stem, String.toList_ofList]
  exact fun member => slash_notMem_fileName target (List.takeWhile_subset _ member)

theorem point_notMem_stem (target : SourceName) : '.' ∉ (stem target).toList := by
  rw [stem, String.toList_ofList]
  intro member
  simpa using List.mem_takeWhile_imp member

end Stem

section Name

theorem outputName_eq_append (naming : OutputNaming) (target : SourceName) :
    naming.outputName target = stem target ++ (naming.suffix ++ "." ++ naming.extension) := by
  simp only [outputName, String.append_assoc]

theorem slash_notMem_outputName (plainSuffix : '/' ∉ naming.suffix.toList)
    (plainExtension : '/' ∉ naming.extension.toList) (target : SourceName) :
    '/' ∉ (naming.outputName target).toList := by
  simp [outputName, slash_notMem_stem, plainSuffix, plainExtension]

/-- There is nothing of the target in a name that leads up. -/
theorem outputName_eq_up_iff :
    naming.outputName target = ".." ↔
      stem target = "" ∧ naming.suffix ++ "." ++ naming.extension = ".." := by
  rw [outputName_eq_append]
  constructor
  · intro up
    have empty : stem target = "" := by
      rw [← String.toList_eq_nil_iff, List.eq_nil_iff_forall_not_mem]
      intro c member
      have point : c ∈ "..".toList := by simp [← up, member]
      obtain rfl : c = '.' := by simpa using point
      exact point_notMem_stem target member
    rw [empty, String.empty_append] at up
    exact ⟨empty, up⟩
  · rintro ⟨empty, up⟩
    rw [empty, up, String.empty_append]

end Name

section Directory

theorem trimSlashes_open (directory : String) :
    (trimSlashes directory).toList.getLast? ≠ some '/' := by
  intro closed
  rw [trimSlashes, String.toList_ofList, List.getLast?_reverse] at closed
  have other := List.head?_dropWhile_not (· = '/') directory.toList.reverse
  rw [closed] at other
  simp at other

/-- The output is directly in the configured directory. -/
theorem outputPath_eq_join (plain : '/' ∉ (naming.outputName target).toList) :
    naming.outputPath target =
      Path.join (trimSlashes naming.directory) (naming.outputName target) := by
  simp only [outputPath, Path.join, Path.unrooted_of_notMem plain, trimSlashes_open]
  by_cases empty : trimSlashes naming.directory = ""
  · simp [empty]
  · simp [empty]

theorem leadsOut_outputPath (plain : '/' ∉ (naming.outputName target).toList) :
    Path.LeadsOut (naming.outputPath target) ↔
      Path.LeadsOut (trimSlashes naming.directory) ∨ naming.outputName target = ".." := by
  rw [outputPath_eq_join plain, Path.leadsOut_join (Path.unrooted_of_notMem plain),
    Path.leadsOut_iff_of_notMem plain]

end Directory

/-- With the usual suffix every name is that of a file. -/
theorem isSegment_outputName (directory : String) (target : SourceName) :
    SourceName.IsSegment (outputName { directory } target) := by
  have marked : '_' ∈ (outputName { directory } target).toList := by simp [outputName]
  have differs (other : String) (unmarked : '_' ∉ other.toList) :
      outputName { directory } target ≠ other :=
    fun same => unmarked (same ▸ marked)
  have plainSuffix : '/' ∉ "_flat".toList := by decide
  have plainExtension : '/' ∉ "sol".toList := by decide
  exact ⟨⟨differs _ (by decide), differs _ (by decide), differs _ (by decide)⟩,
    slash_notMem_outputName plainSuffix plainExtension target⟩

end ImportFlattening.OutputNaming
