import ImportFlattening.Proofs.DiskWrites
import ImportFlattening.Proofs.PathComponents
import ImportFlattening.Proofs.ProgramRuns

/-! # Where a local host writes

A local host keeps a text under a path below its root. On the way it makes directories, and what it
has made stays even if the text cannot be written in the end. Each of these directories is above the
file, and besides them nothing on the disk changes but the file (`Disk.ChangesOnly`).
-/

namespace ImportFlattening

namespace Disk

open ImportFlattening.Path (components named)

variable {d d' d₁ d₂ : Disk} {location next : Location} {path text : String}

section Locations

variable {segment : String} {segments : List String}

theorem follow_eq (followed : d.follow location segment = .ok next) (inside : segment ≠ "..") :
    next = location ++ named [segment] := by
  simp only [Disk.follow, if_neg inside] at followed
  split at followed
  case h_1 => cases followed
  case h_2 => cases followed
  case h_3 =>
    split at followed
    case isTrue void =>
      cases followed
      simp [named, void]
    case isFalse proper =>
      split at followed
      case isTrue => cases followed
      case isFalse =>
        cases followed
        simp [named, proper]

theorem foldlM_follow_eq (followed : segments.foldlM d.follow location = .ok next)
    (inside : ".." ∉ segments) : next = location ++ named segments := by
  induction segments generalizing location with
  | nil =>
      cases followed
      exact (List.append_nil _).symm
  | cons segment segments ih =>
      obtain ⟨first, others⟩ := List.ne_and_not_mem_of_not_mem_cons inside
      simp only [List.foldlM_cons, bind, Except.bind] at followed
      cases step : d.follow location segment with
      | error e => simp [step] at followed
      | ok middle =>
          simp only [step] at followed
          rw [ih followed others, follow_eq step (Ne.symm first), List.append_assoc,
            ← Path.named_append, List.singleton_append]

theorem directory_of_foldlM (nonempty : segments ≠ [])
    (followed : segments.foldlM d.follow location = .ok next) :
    d.entry? location = some .directory := by
  obtain ⟨first, rest, rfl⟩ := List.exists_cons_of_ne_nil nonempty
  rw [← List.singleton_append] at followed
  obtain ⟨middle, start, -⟩ := foldlM_append_ok_iff.mp followed
  cases step : d.follow location first with
  | error e => simp [step, bind, Except.bind] at start
  | ok _ => exact directory_of_follow step

/-- A path that does not go up leads from a directory to what it names below, and only if there is
the directory. -/
theorem exists_of_locate_join {directory : String} (nonempty : directory ≠ "")
    (unrooted : Text.isRooted path = false) (inside : ".." ∉ Text.pieces '/' path)
    (located : d.locate (Path.join directory path) = .ok location) :
    ∃ top, d.locate directory = .ok top ∧ location = top ++ named (Text.pieces '/' path) := by
  obtain ⟨noNull, -, short, walked⟩ := locate_eq_ok_iff.mp located
  obtain ⟨front, joined, same⟩ := Path.join_eq nonempty unrooted
  rw [Path.isRooted_join nonempty unrooted, joined, Text.pieces_append_slash] at walked
  obtain ⟨top, reached, below⟩ := foldlM_append_ok_iff.mp walked
  refine ⟨top, locate_eq_ok_iff.mpr ?_, foldlM_follow_eq below inside⟩
  simp only [joined, String.toList_append, List.mem_append, not_or,
    String.utf8ByteSize_append] at noNull short
  rcases same with rfl | rfl
  · exact ⟨noNull.1.1, nonempty, by omega, reached⟩
  · have there := directory_of_foldlM (Text.pieces_ne_nil '/' path) below
    have stays : [""].foldlM d.follow top = .ok top := by
      simp only [List.foldlM_cons, Disk.follow, there]
      rfl
    refine ⟨by simpa using noNull.1, nonempty, by rw [String.utf8ByteSize_append]; omega, ?_⟩
    rw [Path.pieces_concat_slash]
    exact foldlM_append_ok_iff.mpr ⟨top, reached, stays⟩

theorem locate_join {directory : String} {top : Location} (unrooted : Text.isRooted path = false)
    (inside : ".." ∉ Text.pieces '/' path) (there : d.locate directory = .ok top)
    (located : d.locate (Path.join directory path) = .ok location) :
    location = top ++ named (Text.pieces '/' path) := by
  obtain ⟨-, nonempty, -, -⟩ := locate_eq_ok_iff.mp there
  obtain ⟨_, there', below⟩ := exists_of_locate_join nonempty unrooted inside located
  rw [there] at there'
  cases there'
  exact below

end Locations

/-- The disks differ at most in directories above the path, which only the second one has, and in
the file under the path, which holds the text there. -/
structure ChangesOnly (path text : String) (d d' : Disk) : Prop where
  workingDirectory : d'.workingDirectory = d.workingDirectory
  changed : ∀ l, d'.entry? l ≠ d.entry? l →
    d.entry? l = none ∧ d'.entry? l = some .directory ∧
      (∃ above, components above <+: components path ∧ d'.locate above = .ok l) ∨
    d.entry? l ≠ some .directory ∧ d'.entry? l = some (.file text.toUTF8) ∧ d'.locate path = .ok l

theorem AddsDirectories.changesOnly (text : String)
    (adds : AddsDirectories (fun above => components above <+: components path) d d') :
    ChangesOnly path text d d' where
  workingDirectory := adds.workingDirectory
  changed := fun l changed => .inl ⟨adds.vacant changed, adds.added l changed⟩

theorem AddsDirectories.changesOnly_writeText
    (adds : AddsDirectories (fun above => components above <+: components path) d d₁)
    (written : d₁.writeText path text = .ok d₂) : ChangesOnly path text d d₂ := by
  obtain ⟨location, located, free, rfl⟩ := writeText_eq_ok_iff.mp written
  have keeps := keepsDirectories_put free (.file text.toUTF8)
  refine ⟨adds.workingDirectory, ?_⟩
  intro l changed
  by_cases here : l = location
  · subst here
    have unmade : d₁.entry? l = d.entry? l := by
      by_contra made
      exact free (adds.added l made).1
    exact .inr ⟨unmade ▸ free, entry?_put_self (ne_root_of_not_directory free) _,
      keeps.locate located⟩
  · rw [entry?_put_other here] at changed
    obtain ⟨made, above, higher, reached⟩ := adds.added l changed
    rw [entry?_put_other here]
    exact .inl ⟨adds.vacant changed, made, above, higher, keeps.locate reached⟩

end Disk

namespace LocalHost

open ImportFlattening.Path (components named)

variable {host : LocalHost} {path text : String} {d d' : Disk} {answer : Except HostError Unit}

/-- A local host makes directories above the file and then, if it can, writes the text. -/
theorem keepFile_cases (kept : keepFile Disk.storage path text d = (answer, d')) :
    ∃ made,
      Disk.AddsDirectories (fun above => components above <+: (components path).dropLast) d made ∧
      ((∃ e, answer = .error e ∧ ∀ other, e ≠ .refused other) ∧ d' = made ∨
        answer = .ok () ∧ made.writeText path text = .ok d') := by
  rw [keepFile_apply] at kept
  have adds : Disk.AddsDirectories (fun above => components above <+: (components path).dropLast) d
      ((Path.parent? path).elim (.ok (), d) d.createDirectories).2 := by
    cases parent : Path.parent? path with
    | none => exact .refl d
    | some directory =>
        refine d.makeFirst_adds ?_
        intro above higher
        exact Path.components_parent? parent ▸ Path.components_of_mem_ancestorsUpTo higher
  rcases made : (Path.parent? path).elim (.ok (), d) d.createDirectories with ⟨_ | _, d₁⟩
  · rw [made] at kept adds
    cases kept
    exact ⟨_, adds, .inl ⟨⟨_, rfl, nofun⟩, rfl⟩⟩
  · rw [made] at kept adds
    refine ⟨d₁, adds, ?_⟩
    cases written : d₁.writeText path text with
    | error e =>
        simp only [written] at kept
        cases kept
        exact .inl ⟨⟨_, rfl, nofun⟩, rfl⟩
    | ok d₂ =>
        simp only [written] at kept
        cases kept
        exact .inr ⟨rfl, rfl⟩

/-- However far a local host gets with keeping a text, it has changed no more than it should. -/
theorem keepFile_changesOnly (kept : keepFile Disk.storage path text d = (answer, d')) :
    d.ChangesOnly path text d' ∧ (∀ other, answer ≠ .error (.refused other)) ∧
    (answer = .ok () → d'.find path = .ok (.file text.toUTF8)) := by
  obtain ⟨made, adds, failed | ⟨rfl, written⟩⟩ := keepFile_cases kept
  · obtain ⟨⟨e, rfl, unrefused⟩, rfl⟩ := failed
    have above := adds.mono fun _ higher => higher.trans (List.dropLast_prefix _)
    exact ⟨above.changesOnly text, fun other same => unrefused other (Except.error.inj same), nofun⟩
  · have above := adds.mono fun _ higher => higher.trans (List.dropLast_prefix _)
    exact ⟨above.changesOnly_writeText written, nofun, fun _ => Disk.find_of_writeText written⟩

/-- A path that leads out is refused, read-only or not, and only such a path is. To any other path
belong the components of the root followed by its own. A host that is read-only accepts it and leaves
the disk alone. Any other host changes nothing but the file and the directories above it, even if it
fails, and if it succeeds the file holds the text. The file is below the root. -/
theorem setFile_stays_below_root (set : host.setFile Disk.storage path text d = (answer, d')) :
    ((∃ other, answer = .error (.refused other)) ↔ Path.LeadsOut path) ∧
    (Path.LeadsOut path → answer = .error (.refused path) ∧ d' = d ∧
      (HostError.refused path).message = "Refusing to write outside the host root: " ++ path) ∧
    (¬ Path.LeadsOut path →
      components (Path.join host.root path) = components host.root ++
        (Text.pieces '/' path).filter (fun segment => SourceName.IsProper segment) ∧
      (host.readOnly → answer = .ok () ∧ d' = d) ∧
      (¬ host.readOnly →
        d.ChangesOnly (Path.join host.root path) text d' ∧
        (answer = .ok () → d'.find (Path.join host.root path) = .ok (.file text.toUTF8)) ∧
        ∀ top location, d'.locate host.root = .ok top →
          d'.locate (Path.join host.root path) = .ok location →
          location = top ++
            (Text.pieces '/' path).filter (fun segment => SourceName.IsProper segment))) := by
  rw [setFile_apply] at set
  by_cases out : Path.LeadsOut path
  · rw [if_pos ((Path.escapes_iff path).mpr out)] at set
    cases set
    exact ⟨iff_of_true ⟨_, rfl⟩ out, fun _ => ⟨rfl, rfl, rfl⟩, fun inside => absurd out inside⟩
  · rw [if_neg (mt (Path.escapes_iff path).mp out)] at set
    obtain ⟨unrooted, inside⟩ := not_or.mp out
    have unrooted : Text.isRooted path = false := by simpa using unrooted
    rw [← Path.named_eq_filter_isProper inside, Path.components_join unrooted]
    split at set
    case isTrue readOnly =>
      cases set
      refine ⟨iff_of_false nofun out, fun leads => absurd leads out, fun _ => ⟨rfl, ?_, ?_⟩⟩
      · exact fun _ => ⟨rfl, rfl⟩
      · exact fun writes => absurd readOnly writes
    case isFalse writes =>
      obtain ⟨changes, unrefused, holds⟩ := keepFile_changesOnly set
      refine ⟨iff_of_false (fun ⟨other, refused⟩ => unrefused other refused) out,
        fun leads => absurd leads out, fun _ => ⟨rfl, ?_, ?_⟩⟩
      · exact fun readOnly => absurd readOnly writes
      · exact fun _ => ⟨changes, holds, fun _ _ => Disk.locate_join unrooted inside⟩

/-- On an empty disk a text is kept in two new directories, a directory is made for a file that
cannot be, and a way up is refused even if it comes down again. -/
theorem setFile_on_empty_disk :
    (∃ d', setFile { root := "out/" } Disk.storage "./browser//A" "x" {} = (.ok (), d') ∧
      d'.entries = [(["out", "browser", "A"], .file "x".toUTF8), (["out", "browser"], .directory),
        (["out"], .directory)] ∧
      components "out/./browser//A" = components "out/" ++ ["browser", "A"] ∧
      Disk.ChangesOnly "out/./browser//A" "x" {} d' ∧
      d'.find "out/./browser//A" = .ok (.file "x".toUTF8)) ∧
    (∃ d', setFile { root := "out/" } Disk.storage "a/" "x" {} =
        (.error (.cannotWrite "out/a/"), d') ∧
      d'.entries = [(["out"], .directory)] ∧ Disk.ChangesOnly "out/a/" "x" {} d') ∧
    Path.LeadsOut "a/../b" ∧
    ∃ answer d', setFile { root := "out/", readOnly := true } Disk.storage "a/../b" "x" {} =
        (answer, d') ∧
      answer = .error (.refused "a/../b") ∧ d' = {} := by
  have kept : setFile { root := "out/" } Disk.storage "./browser//A" "x" {} =
      (.ok (), { entries := [(["out", "browser", "A"], .file "x".toUTF8),
        (["out", "browser"], .directory), (["out"], .directory)] }) := rfl
  have failed : setFile { root := "out/" } Disk.storage "a/" "x" {} =
      (.error (.cannotWrite "out/a/"), { entries := [(["out"], .directory)] }) := rfl
  have out : Path.LeadsOut "a/../b" := by decide
  have place : Path.join "out/" "./browser//A" = "out/./browser//A" := by decide
  obtain ⟨-, -, below⟩ := setFile_stays_below_root kept
  obtain ⟨joined, -, writes⟩ := below (by decide)
  obtain ⟨changes, holds, -⟩ := writes (by decide)
  rw [place] at joined changes holds
  have place' : Path.join "out/" "a/" = "out/a/" := by decide
  obtain ⟨-, -, below'⟩ := setFile_stays_below_root failed
  obtain ⟨-, -, writes'⟩ := below' (by decide)
  obtain ⟨changes', -⟩ := writes' (by decide)
  rw [place'] at changes'
  have turned : setFile { root := "out/", readOnly := true } Disk.storage "a/../b" "x" {} = _ := rfl
  obtain ⟨answer, unchanged, -⟩ := (setFile_stays_below_root turned).2.1 out
  exact ⟨⟨_, kept, rfl, joined.trans (by decide), changes, holds rfl⟩,
    ⟨_, failed, rfl, changes'⟩, out, _, _, turned, answer, unchanged⟩

end LocalHost

end ImportFlattening
