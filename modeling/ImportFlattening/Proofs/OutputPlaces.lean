import ImportFlattening.Proofs.ContainedWrites
import ImportFlattening.Proofs.OutputPaths

/-! # Where a session writes

A session hands its host texts for the clipboard and for outputs, and the names of the outputs come
from targets, about which nothing is known. All that a local host changes on a disk is the clipboard,
the directories down to the one that is configured, and files directly in there
(`LocalHost.Permits`). This is shown for one call and carried through the calls of a command
(`Host.Bounded.execute`).
-/

namespace ImportFlattening

section Commands

variable {σ α : Type} {host : Host (StateM σ)} {naming : OutputNaming} {moves : σ → σ → Prop}
  {allows : HostError → Prop}

/-- If a file is to be kept, then as the output for some target. -/
def HostCall.IsOutput (naming : OutputNaming) : HostCall → Prop
  | .file path _ => ∃ target, path = naming.outputPath target
  | _ => True

/-- As long as files are outputs, calls move the state of the host along the relation and fail only
with such errors. -/
structure Host.Bounded (host : Host (StateM σ)) (naming : OutputNaming) (moves : σ → σ → Prop)
    (allows : HostError → Prop) : Prop where
  refl : ∀ w, moves w w
  trans : ∀ {w₁ w₂ w₃}, moves w₁ w₂ → moves w₂ w₃ → moves w₁ w₃
  call : ∀ call, HostCall.IsOutput naming call → ∀ w,
    moves w (host call w).2 ∧ ∀ e, (host call w).1 = .error e → allows e

namespace Host.Bounded

theorem ask (bounded : host.Bounded naming moves allows) {calls : List HostCall}
    (outputs : ∀ call ∈ calls, HostCall.IsOutput naming call) (w : σ) :
    moves w (Host.ask host calls w).2 ∧
      ∀ e, (Host.ask host calls w).1 = .error e → allows e := by
  induction calls generalizing w with
  | nil => exact ⟨bounded.refl w, by rintro _ ⟨⟩⟩
  | cons call rest ih =>
      obtain ⟨output, others⟩ := List.forall_mem_cons.mp outputs
      have first := bounded.call call output w
      rw [Host.ask]
      generalize host call w = answered at first ⊢
      obtain ⟨e | _, next⟩ := answered
      · exact first
      · have later := ih others next
        exact ⟨bounded.trans first.1 later.1, later.2⟩

theorem conclude (bounded : host.Bounded naming moves allows) {calls : α → List HostCall}
    (outputs : ∀ a, ∀ call ∈ calls a, HostCall.IsOutput naming call) (computed : Except Error α)
    (w : σ) :
    moves w (Session.conclude host calls computed w).2 ∧
      ∀ e, (Session.conclude host calls computed w).1 = .error (.host e) → allows e := by
  have reported (message : String) (w : σ) := (bounded.call (.status (.failed message)) trivial w).1
  cases computed with
  | error e => exact ⟨reported e.message w, by rintro _ ⟨⟩⟩
  | ok a =>
      have asked := bounded.ask (outputs a) w
      rw [Session.conclude]
      generalize Host.ask host (calls a) w = answered at asked ⊢
      obtain ⟨e | _, next⟩ := answered
      · refine ⟨bounded.trans asked.1 (reported e.message next), ?_⟩
        rintro _ ⟨⟩
        exact asked.2 e rfl
      · exact ⟨asked.1, by rintro _ ⟨⟩⟩

theorem execute {config : Config} (bounded : host.Bounded config.naming moves allows)
    (command : Command) (s : Session) (w : σ) :
    moves w (Session.execute host config command s w).2 ∧
      ∀ e, (Session.execute host config command s w).1.1 = .error (.host e) → allows e := by
  have unmapped {β : Type} (r : Except CommandError β) (e : CommandError)
      (failed : (r.map fun _ => PUnit.unit) = .error e) : r = .error e := by
    cases r with
    | error _ => exact congrArg _ (Except.error.inj failed)
    | ok _ => cases failed
  cases command with
  | compiled event =>
      have idle := bounded.call (.status .idle) trivial w
      rw [Session.execute_compiled]
      generalize host (.status .idle) w = answered at idle ⊢
      obtain ⟨e | _, next⟩ := answered
      · refine ⟨idle.1, ?_⟩
        rintro _ ⟨⟩
        exact idle.2 e rfl
      · exact ⟨idle.1, by rintro _ ⟨⟩⟩
  | flatten =>
      have outputs (f : Flattened) :
          ∀ call ∈ Session.deliveries config.naming f, HostCall.IsOutput config.naming call := by
        simp [Session.deliveries, HostCall.IsOutput]
      have ended := bounded.conclude outputs (flattenLatest s.compilation config.policy) w
      rw [Session.execute_flatten]
      exact ⟨ended.1, fun e failed => ended.2 e (unmapped _ _ failed)⟩
  | save =>
      have outputs (f : Flattened) :
          ∀ call ∈ Session.savings config.naming f, HostCall.IsOutput config.naming call := by
        simp [Session.savings, HostCall.IsOutput]
      have ended := bounded.conclude outputs s.saveable w
      rw [Session.execute_save]
      exact ⟨ended.1, fun e failed => ended.2 e (unmapped _ _ failed)⟩

end Host.Bounded

end Commands

namespace Disk

open ImportFlattening.Path (named)

variable {d d' : Disk} {directory path : String} {location : Location}

/-- Where a directory is. The empty path stands for the working directory, although it cannot be
followed. -/
def place (d : Disk) (directory : String) : Except DiskError Location :=
  if directory = "" then .ok d.workingDirectory else d.locate directory

theorem KeepsDirectories.place (keeps : d.KeepsDirectories d')
    (placed : d.place directory = .ok location) : d'.place directory = .ok location := by
  unfold Disk.place at placed ⊢
  split at placed
  case isTrue empty => rw [if_pos empty, keeps.workingDirectory, placed]
  case isFalse nonempty => rw [if_neg nonempty, keeps.locate placed]

theorem exists_place_of_locate_join (unrooted : Text.isRooted path = false)
    (inside : ".." ∉ Text.pieces '/' path)
    (located : d.locate (Path.join directory path) = .ok location) :
    ∃ top, d.place directory = .ok top ∧ location = top ++ named (Text.pieces '/' path) := by
  by_cases empty : directory = ""
  · rw [empty, Path.join_empty unrooted] at located
    obtain ⟨-, -, -, walked⟩ := locate_eq_ok_iff.mp located
    rw [unrooted, if_neg Bool.false_ne_true] at walked
    exact ⟨_, if_pos empty, foldlM_follow_eq walked inside⟩
  · rw [place, if_neg empty]
    exact exists_of_locate_join empty unrooted inside located

end Disk

/-- A refusal is to be expected only if the configured directory leads out. -/
def OutputNaming.MayFailWith (naming : OutputNaming) (e : HostError) : Prop :=
  Path.LeadsOut (trimSlashes naming.directory) ∨ ∀ path, e ≠ .refused path

namespace LocalHost

open ImportFlattening.Path (components)

variable {host : LocalHost} {naming : OutputNaming} {target : SourceName} {d d' d₁ d₂ d₃ : Disk}
  {location : Location} {path text : String} {answer : Except HostError Unit}

/-- The directory of the outputs. -/
def outputDirectory (host : LocalHost) (naming : OutputNaming) : String :=
  Path.join host.root (OutputNaming.trimSlashes naming.directory)

/-- The places where something may change: that of the clipboard and, unless the configured
directory leads out, those of the directory of the outputs, of directories above it and of files
directly in it. -/
inductive Permits (host : LocalHost) (naming : OutputNaming) (d : Disk) : Location → Prop where
  | clipboard {path : String} {location : Location} (copies : host.clipboard = some path)
      (located : d.locate path = .ok location) : Permits host naming d location
  | directory {path : String} {location : Location}
      (inside : ¬ Path.LeadsOut (OutputNaming.trimSlashes naming.directory))
      (above : components path <+: components (host.outputDirectory naming))
      (located : d.locate path = .ok location) (made : d.entry? location = some .directory) :
      Permits host naming d location
  | output {top : Location}
      (inside : ¬ Path.LeadsOut (OutputNaming.trimSlashes naming.directory))
      (placed : d.place (host.outputDirectory naming) = .ok top) (target : SourceName) :
      Permits host naming d (top ++ [naming.outputName target])

theorem Permits.mono (permitted : host.Permits naming d location) (keeps : d.KeepsDirectories d') :
    host.Permits naming d' location := by
  cases permitted with
  | clipboard copies located => exact .clipboard copies (keeps.locate located)
  | directory inside above located made =>
      exact .directory inside above (keeps.locate located) (keeps.directory _ made)
  | output inside placed target => exact .output inside (keeps.place placed) target

/-- Something has changed at most where it may. -/
structure Confined (host : LocalHost) (naming : OutputNaming) (d d' : Disk) : Prop
    extends d.KeepsDirectories d' where
  changed : ∀ l, d'.entry? l ≠ d.entry? l → host.Permits naming d' l

theorem Confined.refl (d : Disk) : host.Confined naming d d :=
  ⟨⟨rfl, fun _ there => there⟩, fun _ changed => absurd rfl changed⟩

theorem Confined.trans (first : host.Confined naming d₁ d₂) (second : host.Confined naming d₂ d₃) :
    host.Confined naming d₁ d₃ := by
  refine ⟨first.toKeepsDirectories.trans second.toKeepsDirectories, ?_⟩
  intro l changed
  by_cases same : d₃.entry? l = d₂.entry? l
  · rw [same] at changed
    exact (first.changed l changed).mono second.toKeepsDirectories
  · exact second.changed l same

theorem confined_of_adds (inside : ¬ Path.LeadsOut (OutputNaming.trimSlashes naming.directory))
    (adds : Disk.AddsDirectories
      (fun above => components above <+: components (host.outputDirectory naming)) d d') :
    host.Confined naming d d' := by
  refine ⟨adds.toExtends.keepsDirectories, ?_⟩
  intro l changed
  obtain ⟨made, path, above, located⟩ := adds.added l changed
  exact .directory inside above located made

theorem confined_of_writeText (written : d.writeText path text = .ok d')
    (permitted : ∀ l, d'.locate path = .ok l → host.Permits naming d' l) :
    host.Confined naming d d' := by
  obtain ⟨location, located, free, rfl⟩ := Disk.writeText_eq_ok_iff.mp written
  have keeps := Disk.keepsDirectories_put free (.file text.toUTF8)
  refine ⟨keeps, ?_⟩
  intro l changed
  obtain rfl : l = location :=
    Decidable.byContradiction fun other => changed (Disk.entry?_put_other other _)
  exact permitted l (keeps.locate located)

theorem copy_confined (host : LocalHost) (naming : OutputNaming) (text : String) (d : Disk) :
    host.Confined naming d (host.copy Disk.storage text d).2 ∧
      ∀ e, (host.copy Disk.storage text d).1 = .error e → naming.MayFailWith e := by
  cases copies : host.clipboard with
  | none =>
      have unchanged : host.copy Disk.storage text d = (.ok (), d) := by
        rw [copy, copies]
        rfl
      rw [unchanged]
      exact ⟨.refl d, by rintro _ ⟨⟩⟩
  | some clipboard =>
      rw [copy_apply copies]
      cases written : d.writeText clipboard text with
      | error e =>
          refine ⟨.refl d, ?_⟩
          rintro _ ⟨⟩
          exact .inr (by rintro _ ⟨⟩)
      | ok d' =>
          refine ⟨confined_of_writeText written ?_, by rintro _ ⟨⟩⟩
          intro l located
          exact .clipboard copies located

theorem join_outputPath (inside : ¬ Path.LeadsOut (OutputNaming.trimSlashes naming.directory))
    (plain : '/' ∉ (naming.outputName target).toList) :
    Path.join host.root (naming.outputPath target) =
      Path.join (host.outputDirectory naming) (naming.outputName target) := by
  obtain ⟨unrooted, -⟩ := not_or.mp inside
  rw [OutputNaming.outputPath_eq_join plain, outputDirectory,
    Path.join_join (by simpa using unrooted) (Path.unrooted_of_notMem plain)]

theorem keepFile_confined (inside : ¬ Path.LeadsOut (OutputNaming.trimSlashes naming.directory))
    (segment : SourceName.IsSegment (naming.outputName target))
    (kept : keepFile Disk.storage
      (Path.join (host.outputDirectory naming) (naming.outputName target)) text d = (answer, d')) :
    host.Confined naming d d' ∧ ∀ e, answer = .error e → naming.MayFailWith e := by
  have unrooted := Path.unrooted_of_notMem segment.2
  have below := Path.named_pieces_of_isSegment segment
  have notUp : ".." ∉ Text.pieces '/' (naming.outputName target) := by
    rw [Path.pieces_of_notMem segment.2, List.mem_singleton]
    exact segment.1.2.2.symm
  obtain ⟨made, adds, ended⟩ := keepFile_cases kept
  rw [Path.components_join unrooted, below, List.dropLast_concat] at adds
  have directories := confined_of_adds inside adds
  rcases ended with ⟨⟨e, rfl, unrefused⟩, rfl⟩ | ⟨rfl, written⟩
  · refine ⟨directories, ?_⟩
    rintro _ ⟨⟩
    exact .inr unrefused
  · refine ⟨directories.trans (confined_of_writeText written ?_), by rintro _ ⟨⟩⟩
    intro l located
    obtain ⟨top, placed, rfl⟩ := Disk.exists_place_of_locate_join unrooted notUp located
    rw [below]
    exact .output inside placed target

theorem setFile_confined (segment : SourceName.IsSegment (naming.outputName target))
    (set : host.setFile Disk.storage (naming.outputPath target) text d = (answer, d')) :
    host.Confined naming d d' ∧ ∀ e, answer = .error e → naming.MayFailWith e := by
  have outside : Path.escapes (naming.outputPath target) ↔
      Path.LeadsOut (OutputNaming.trimSlashes naming.directory) := by
    rw [Path.escapes_iff, OutputNaming.leadsOut_outputPath segment.2, or_iff_left segment.1.2.2]
  rw [setFile_apply] at set
  split at set
  case isTrue escapes =>
    cases set
    exact ⟨.refl d, fun _ _ => .inl (outside.mp escapes)⟩
  case isFalse stays =>
    have inside := mt outside.mpr stays
    split at set
    case isTrue =>
      cases set
      exact ⟨.refl d, by rintro _ ⟨⟩⟩
    case isFalse =>
      rw [join_outputPath inside segment.2] at set
      exact keepFile_confined inside segment set

theorem serve_bounded (host : LocalHost)
    (segments : ∀ target, SourceName.IsSegment (naming.outputName target)) :
    Host.Bounded (host.serve Disk.storage).merged naming
      (fun w w' => host.Confined naming w.2 w'.2) naming.MayFailWith where
  refl := fun w => .refl w.2
  trans := Confined.trans
  call := by
    rintro call output ⟨history, d⟩
    cases call with
    | status _ => exact ⟨.refl d, by rintro _ ⟨⟩⟩
    | alert _ => exact ⟨.refl d, by rintro _ ⟨⟩⟩
    | clipboard text =>
        rw [serve_clipboard]
        exact host.copy_confined naming text d
    | file path text =>
        obtain ⟨target, rfl⟩ := output
        rw [serve_file]
        generalize set : host.setFile Disk.storage (naming.outputPath target) text d = ended
        exact setFile_confined (segments target) set

/-- Whatever the command, and whatever its target is called. -/
theorem execute_confined (host : LocalHost) (config : Config)
    (segments : ∀ target, SourceName.IsSegment (config.naming.outputName target))
    (command : Command) (s : Session) (history : List Status) (d : Disk) :
    let ended := Session.execute (host.serve Disk.storage) config command s history d
    host.Confined config.naming d ended.2 ∧
      ∀ e, ended.1.1.1 = .error (.host e) → config.naming.MayFailWith e := by
  have bounded := (host.serve_bounded segments).execute command s (history, d)
  rw [← Session.merged_execute] at bounded
  generalize Session.execute (host.serve Disk.storage) config command = run at bounded ⊢
  exact bounded

theorem resolves_outputPath_iff (host : LocalHost) (plainSuffix : '/' ∉ naming.suffix.toList)
    (plainExtension : '/' ∉ naming.extension.toList) :
    (∃ full, host.resolve (naming.outputPath target) = .ok full) ↔
      ¬ Path.LeadsOut (OutputNaming.trimSlashes naming.directory) ∧
        ¬ (OutputNaming.stem target = "" ∧ naming.suffix ++ "." ++ naming.extension = "..") := by
  have plain := OutputNaming.slash_notMem_outputName plainSuffix plainExtension target
  rw [← not_or, ← OutputNaming.outputName_eq_up_iff, ← OutputNaming.leadsOut_outputPath plain,
    ← Path.escapes_iff, resolve]
  split
  case isTrue escapes => simp [escapes]
  case isFalse stays => simp [stays]

/-- A local host accepts the path of an output unless the configured directory, without the slashes
at its end, starts at the root or goes up, or the name has nothing of the target and the rest of it
is the segment for going up. With the usual suffix and extension it depends on the directory alone.
Then no command is refused, and a command changes nothing on the disk but the clipboard, directories
down to the configured one below the root of the host and files directly in there; if the configured
directory leads out, nothing but the clipboard. -/
theorem outputs_stay_in_their_directory (host : LocalHost) :
    (∀ (naming : OutputNaming) (target : SourceName),
      '/' ∉ naming.suffix.toList → '/' ∉ naming.extension.toList →
      let directory := OutputNaming.trimSlashes naming.directory
      ((∃ full, host.resolve (naming.outputPath target) = .ok full) ↔
        directory.toList.head? ≠ some '/' ∧ ".." ∉ Text.pieces '/' directory ∧
          ¬ (OutputNaming.stem target = "" ∧
            naming.suffix ++ "." ++ naming.extension = ".."))) ∧
    ∀ (directory : String) (policy : Policy),
      let naming : OutputNaming := { directory }
      let leadsOut := Path.LeadsOut (OutputNaming.trimSlashes directory)
      (∀ target, (∃ full, host.resolve (naming.outputPath target) = .ok full) ↔ ¬ leadsOut) ∧
      ∀ command s history disk,
        let ended := Session.execute (host.serve Disk.storage) { naming, policy } command s
          history disk
        (¬ leadsOut → ∀ path, ended.1.1.1 ≠ .error (.host (.refused path))) ∧
        ∀ l, Disk.entry? ended.2 l ≠ disk.entry? l → host.Permits naming ended.2 l := by
  constructor
  · intro naming target plainSuffix plainExtension directory
    rw [host.resolves_outputPath_iff plainSuffix plainExtension, Path.LeadsOut, not_or, and_assoc,
      Text.isRooted, decide_eq_true_eq]
  · intro directory policy naming leadsOut
    have plainSuffix : '/' ∉ "_flat".toList := by decide
    have plainExtension : '/' ∉ "sol".toList := by decide
    have ending : "_flat" ++ "." ++ "sol" ≠ ".." := by decide
    constructor
    · intro target
      rw [host.resolves_outputPath_iff plainSuffix plainExtension]
      exact and_iff_left fun up => ending up.2
    · intro command s history disk ended
      obtain ⟨confined, errors⟩ := host.execute_confined { naming, policy }
        (OutputNaming.isSegment_outputName directory) command s history disk
      refine ⟨?_, confined.changed⟩
      intro inside path refused
      rcases errors _ refused with out | unrefused
      · exact inside out
      · exact unrefused path rfl

theorem execute_save_kept (config : Config) {s : Session} {f : Flattened}
    (saveable : s.saveable = .ok f) (history : List Status)
    (kept : host.setFile Disk.storage (config.naming.outputPath f.target) f.text d = (.ok (), d')) :
    Session.execute (host.serve Disk.storage) config .save s history d =
      (((.ok (), s), history ++ [.saved ("Saved " ++ config.naming.outputPath f.target)]), d') := by
  have stated (status : Status) : (host.serve Disk.storage).merged (.status status) (history, d') =
      (.ok (), history ++ [status], d') := rfl
  have ended := congrFun (congrFun (Session.merged_execute (host.serve Disk.storage) config .save) s)
    (history, d)
  simp only [Session.execute_save, saveable, Session.conclude, Session.savings, Host.ask, serve_file,
    kept, stated] at ended
  generalize Session.execute (host.serve Disk.storage) config .save = run at ended ⊢
  obtain ⟨outcome, states⟩ := Prod.mk.inj ended
  obtain ⟨collected, disk⟩ := Prod.mk.inj states
  exact Prod.ext (Prod.ext outcome collected) disk

/-- What has been flattened from a target that is named like a way up. -/
def upward : Flattened where
  target := ⟨"a/../.."⟩
  order := ⟨[⟨"a/../.."⟩], [], []⟩
  text := "x"

/-- Such an output is kept where it belongs. It takes a suffix and an extension that lead up on their
own to have it refused, and even then the outputs of other targets are accepted. -/
theorem upward_stays_in_directory :
    (∃ answer d, Session.execute (serve { root := "out" } Disk.storage)
        { naming := { directory := "b//" } } .save ⟨some { target := upward.target }, some upward⟩
        [] {} = (answer, d) ∧
      (∀ path, answer.1.1 ≠ .error (.host (.refused path))) ∧
      d.entry? ["out", "b", "_flat.sol"] = some (.file "x".toUTF8) ∧
      Permits { root := "out" } { directory := "b//" } d ["out", "b", "_flat.sol"]) ∧
    (¬ ∃ full, resolve { root := "out" }
      (OutputNaming.outputPath { directory := "b", suffix := ".", extension := "" } upward.target) =
        .ok full) ∧
    ∃ full, resolve { root := "out" }
      (OutputNaming.outputPath { directory := "b", suffix := ".", extension := "" } ⟨"../A.sol"⟩) =
        .ok full := by
  obtain ⟨acceptance, usual⟩ := outputs_stay_in_their_directory { root := "out" }
  have unusual (target : SourceName) :=
    acceptance { directory := "b", suffix := ".", extension := "" } target (by decide) (by decide)
  have path : OutputNaming.outputPath { directory := "b//" } upward.target = "b/_flat.sol" := by
    decide
  have kept : setFile { root := "out" } Disk.storage "b/_flat.sol" upward.text {} =
      (.ok (), { entries := [(["out", "b", "_flat.sol"], .file "x".toUTF8),
        (["out", "b"], .directory), (["out"], .directory)] }) := rfl
  rw [← path] at kept
  have saved := execute_save_kept { naming := { directory := "b//" } }
    (s := ⟨some { target := upward.target }, some upward⟩) rfl [] kept
  obtain ⟨unrefused, changed⟩ := (usual "b//" {}).2 .save
    ⟨some { target := upward.target }, some upward⟩ [] {}
  rw [saved] at unrefused changed
  exact ⟨⟨_, _, saved, unrefused (by decide), rfl, changed _ (by decide)⟩,
    (unusual _).not.mpr (by decide), (unusual _).mpr (by decide)⟩

end LocalHost

end ImportFlattening
