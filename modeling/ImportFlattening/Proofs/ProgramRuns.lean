import ImportFlattening.Program
import ImportFlattening.Proofs.CommandCalls

/-! # What a run comes to on a disk

The program reads its input, flattens or orders, and delivers the text by way of a local host. On a
disk each of these steps has an equation: reading leaves the disk as it is (`Program.input_apply`),
the statuses that the host collects have no effect on anything else (`LocalHost.conclude_served`),
and what is left is a copy and a file (`LocalHost.deliver`).
-/

namespace ImportFlattening

section Merging

-- What a command does is known for hosts with one state. The local host of a run has two, its
-- history and the disk, so it is turned into one of them, and every command along with it.

variable {ρ σ α β : Type}

/-- The host with both of its states in one. -/
def Host.merged (host : Host (StateT ρ (StateM σ))) : Host (StateM (ρ × σ)) :=
  fun call w => ((host call w.1 w.2).1.1, (host call w.1 w.2).1.2, (host call w.1 w.2).2)

namespace Session

/-- The command with both states of its host in one. -/
def merged (command : Run (StateT ρ (StateM σ)) α) : Run (StateM (ρ × σ)) α :=
  fun s w => ((command s w.1 w.2).1.1, (command s w.1 w.2).1.2, (command s w.1 w.2).2)

variable (host : Host (StateT ρ (StateM σ)))

theorem merged_bind (x : Run (StateT ρ (StateM σ)) α) (next : α → Run (StateT ρ (StateM σ)) β) :
    merged (x >>= next) = merged x >>= fun a => merged (next a) := by
  funext s w
  rw [bind_apply]
  simp only [merged, bind, ExceptT.bind, ExceptT.mk, StateT.bind]
  rcases x s w.1 w.2 with ⟨⟨⟨_ | _, _⟩, _⟩, _⟩ <;> rfl

theorem merged_callAll (calls : List HostCall) :
    merged (callAll host calls) = callAll host.merged calls := by
  induction calls with
  | nil => rfl
  | cons call rest ih =>
      have asked : merged (liftM (host call).run : Run (StateT ρ (StateM σ)) _) =
          liftM (host.merged call).run := rfl
      simp only [callAll, List.forM_eq_forM, List.forM_cons, merged_bind, asked] at ih ⊢
      rw [ih]
      congr 2
      funext answer
      cases answer <;> rfl

theorem merged_reporting (command : Run (StateT ρ (StateM σ)) α) :
    merged (reporting host command) = reporting host.merged (merged command) := by
  funext s w
  rw [reporting_apply]
  simp only [merged, reporting, tryCatch, tryCatchThe, MonadExceptOf.tryCatch, ExceptT.tryCatch,
    ExceptT.mk, bind, StateT.bind]
  rcases command s w.1 w.2 with ⟨⟨⟨_ | _, _⟩, _⟩, _⟩ <;> rfl

theorem merged_orFail (r : Except Error α) :
    merged (orFail r : Run (StateT ρ (StateM σ)) α) = orFail r := by
  cases r <;> rfl

theorem merged_get : merged (get : Run (StateT ρ (StateM σ)) Session) = get := rfl

theorem merged_flatten (config : Config) :
    merged (flatten host config) = flatten host.merged config := by
  simp only [flatten, merged_reporting, merged_bind, merged_callAll, merged_orFail, merged_get]
  rfl

theorem merged_save (config : Config) : merged (save host config) = save host.merged config := by
  simp only [save, merged_reporting, merged_bind, merged_callAll, merged_orFail, merged_get]
  rfl

theorem merged_compilationFinished (event : CompileEvent) :
    merged (compilationFinished host event) = compilationFinished host.merged event := by
  simp only [compilationFinished, merged_bind, merged_callAll]
  rfl

theorem merged_discard (x : Run (StateT ρ (StateM σ)) α) :
    merged (discard x : Run (StateT ρ (StateM σ)) PUnit) = discard (merged x) := by
  funext s w
  rw [discard_apply]
  simp only [merged, discard, Functor.mapConst, ExceptT.map, ExceptT.mk, Function.comp_apply, bind,
    StateT.bind]
  rcases x s w.1 w.2 with ⟨⟨⟨_ | _, _⟩, _⟩, _⟩ <;> rfl

theorem merged_execute (config : Config) (command : Command) :
    merged (execute host config command) = execute host.merged config command := by
  cases command with
  | compiled event => rw [execute, merged_discard, merged_compilationFinished, execute]
  | flatten => rw [execute, merged_discard, merged_flatten, execute]
  | save => rw [execute, merged_discard, merged_save, execute]

end Session

end Merging

theorem Disk.bind_apply {ε α β : Type} (x : ExceptT ε (StateM Disk) α)
    (next : α → ExceptT ε (StateM Disk) β) (d : Disk) :
    (x >>= next) d =
      match x d with
      | (.ok a, d) => next a d
      | (.error e, d) => (.error e, d) := by
  simp only [bind, ExceptT.bind, ExceptT.mk, StateT.bind]
  rcases x d with ⟨_ | _, _⟩ <;> rfl

theorem Disk.liftM_apply {ε α : Type} (x : StateM Disk α) (d : Disk) :
    (liftM x : ExceptT ε (StateM Disk) α) d = (.ok (x d).1, (x d).2) := rfl

/-- The configuration that the disk has for the project in `root`. -/
def Config.readFrom (d : Disk) (root : String) : Except LoadError Config :=
  match d.readText (path root) with
  | .error .notFound => .ok {}
  | .error _ => .error (.cannotRead (path root))
  | .ok text =>
    match parse text with
    | none => .error (.invalid (path root))
    | some config => .ok config

theorem Config.load_apply (root : String) (d : Disk) :
    load Disk.storage root d = (readFrom d root, d) := by
  have read : (liftM (Disk.storage.readText (path root)) : ExceptT LoadError (StateM Disk) _) d =
      (.ok (d.readText (path root)), d) := rfl
  simp only [load, readFrom, Disk.bind_apply, read]
  rcases d.readText (path root) with e | text
  · cases e <;> rfl
  · cases parsed : parse text <;> simp only [parsed] <;> rfl

/-- The event that the disk has under the path. -/
def CompileEvent.readFrom (d : Disk) (path : String) : Except LoadError CompileEvent :=
  match d.readText path with
  | .error _ => .error (.cannotReadEvent path)
  | .ok text =>
    match parse text with
    | none => .error .malformedEvent
    | some event => .ok event

theorem CompileEvent.load_apply (path : String) (d : Disk) :
    load Disk.storage path d = (readFrom d path, d) := by
  have read : (liftM (Disk.storage.readText path) : ExceptT LoadError (StateM Disk) _) d =
      (.ok (d.readText path), d) := rfl
  simp only [load, readFrom, Disk.bind_apply, read]
  rcases d.readText path with e | text
  · rfl
  · cases parsed : parse text <;> simp only [parsed] <;> rfl

namespace LocalHost

theorem copy_apply {host : LocalHost} {clipboard : String} (there : host.clipboard = some clipboard)
    (text : String) (d : Disk) :
    host.copy Disk.storage text d =
      match d.writeText clipboard text with
      | .ok written => (.ok (), written)
      | .error _ => (.error (.cannotWriteClipboard clipboard), d) := by
  simp only [copy, there, Disk.bind_apply, Disk.liftM_apply, Disk.storage]
  cases d.writeText clipboard text <;> rfl

theorem keepFile_apply (path text : String) (d : Disk) :
    keepFile Disk.storage path text d =
      match (Path.parent? path).elim (.ok (), d) d.createDirectories with
      | (.error _, made) => (.error (.cannotCreate ((Path.parent? path).getD "")), made)
      | (.ok _, made) =>
        match made.writeText path text with
        | .ok written => (.ok (), written)
        | .error _ => (.error (.cannotWrite path), made) := by
  unfold keepFile
  cases Path.parent? path with
  | none =>
      simp only [Disk.bind_apply, Disk.liftM_apply, Disk.storage, Option.elim_none]
      cases d.writeText path text <;> rfl
  | some directory =>
      simp only [Disk.bind_apply, Disk.liftM_apply, Disk.storage, Option.elim_some]
      rcases d.createDirectories directory with ⟨_ | _, made⟩
      · rfl
      · simp only [Disk.bind_apply, Disk.liftM_apply]
        cases made.writeText path text <;> rfl

theorem setFile_apply (host : LocalHost) (path text : String) (d : Disk) :
    host.setFile Disk.storage path text d =
      if Path.escapes path then (.error (.refused path), d)
      else if host.readOnly then (.ok (), d)
      else keepFile Disk.storage (Path.join host.root path) text d := by
  rw [setFile, Disk.bind_apply, resolve]
  cases Path.escapes path with
  | true => rfl
  | false =>
      cases host.readOnly with
      | true => rfl
      | false => rfl

/-- Copy a text and keep it in a file. -/
def deliver (host : LocalHost) (path text : String) (d : Disk) : Except HostError Unit × Disk :=
  match host.copy Disk.storage text d with
  | (.error e, d) => (.error e, d)
  | (.ok _, d) => host.setFile Disk.storage path text d

variable (host : LocalHost) (history : List Status) (d : Disk)

theorem serve_clipboard (text : String) :
    (host.serve Disk.storage).merged (.clipboard text) (history, d) =
      ((host.copy Disk.storage text d).1, history, (host.copy Disk.storage text d).2) := by
  simp only [Host.merged, serve]
  generalize host.copy Disk.storage text = copying
  rfl

theorem serve_file (path text : String) :
    (host.serve Disk.storage).merged (.file path text) (history, d) =
      ((host.setFile Disk.storage path text d).1, history,
        (host.setFile Disk.storage path text d).2) := by
  simp only [Host.merged, serve]
  generalize host.setFile Disk.storage path text = keeping
  rfl

theorem ask_deliveries (naming : OutputNaming) (f : Flattened) :
    ∃ history', Host.ask (host.serve Disk.storage).merged (Session.deliveries naming f)
        (history, d) =
      ((host.deliver (naming.outputPath f.target) f.text d).1, history',
        (host.deliver (naming.outputPath f.target) f.text d).2) := by
  simp only [Session.deliveries, Host.ask, serve_clipboard, deliver]
  rcases host.copy Disk.storage f.text d with ⟨_ | _, d⟩
  · exact ⟨history, rfl⟩
  · simp only [serve_file]
    rcases host.setFile Disk.storage (naming.outputPath f.target) f.text d with ⟨_ | _, d⟩
    · exact ⟨history, rfl⟩
    · exact ⟨history ++ [.succeeded Session.flattenedTitle], rfl⟩

/-- Deliver what has been flattened. -/
def conclude (naming : OutputNaming) :
    Except Error Flattened → Disk → Except CommandError Flattened × Disk
  | .error e, d => (.error (.flattening e), d)
  | .ok f, d =>
    match host.deliver (naming.outputPath f.target) f.text d with
    | (.error e, d) => (.error (.host e), d)
    | (.ok _, d) => (.ok f, d)

theorem conclude_served (naming : OutputNaming) (computed : Except Error Flattened) :
    ∃ history', Session.conclude (host.serve Disk.storage).merged (Session.deliveries naming)
        computed (history, d) =
      ((host.conclude naming computed d).1, history', (host.conclude naming computed d).2) := by
  cases computed with
  | error e => exact ⟨history ++ [.failed e.message], rfl⟩
  | ok f =>
      obtain ⟨history, asked⟩ := host.ask_deliveries history d naming f
      simp only [Session.conclude, conclude, asked]
      rcases host.deliver (naming.outputPath f.target) f.text d with ⟨e | _, d⟩
      · exact ⟨history ++ [.failed e.message], rfl⟩
      · exact ⟨history, rfl⟩

end LocalHost

namespace Program

variable (d : Disk)

theorem flattenEvent_apply (host : LocalHost) (config : Config) (event : CompileEvent) :
    let run := flattenEvent Disk.storage host config event {} [] d
    (run.1.1.1, run.2) =
      host.conclude config.naming (event.compilation.flatten config.policy) d := by
  have merged : Session.merged (flattenEvent Disk.storage host config event) =
      discard (Session.compilationFinished (host.serve Disk.storage).merged event) >>= fun _ =>
        Session.flatten (host.serve Disk.storage).merged config := by
    simp only [flattenEvent, Session.merged_bind, Session.merged_discard,
      Session.merged_compilationFinished, Session.merged_flatten]
  have idle : (host.serve Disk.storage).merged (.status .idle) ([], d) =
      (.ok (), [Status.idle], d) := rfl
  have passed : (Except.ok () : Except HostError Unit).mapError CommandError.host = .ok () := rfl
  obtain ⟨history, concluded⟩ := host.conclude_served [.idle] d config.naming
    (event.compilation.flatten config.policy)
  have ended := congrFun (congrFun merged {}) ([], d)
  simp only [Session.bind_apply, Session.discard_apply,
    Session.compilationFinished_apply _ config, idle, passed, Except.map,
    Session.flatten_apply, Session.after, flattenLatest, concluded] at ended
  exact congrArg (fun r : (Except CommandError Flattened × Session) × List Status × Disk =>
    (r.1.1, r.2.2)) ended

variable (root event : String)

/-- The input that the disk has for a run. -/
def inputFrom (d : Disk) (root event : String) : Except ProgramError (Config × CompileEvent) :=
  Except.mapError .loading do
    return (← Config.readFrom d root, ← CompileEvent.readFrom d event)

theorem input_apply : input Disk.storage root event d = (inputFrom d root event, d) := by
  have adapted (x : ExceptT LoadError (StateM Disk) (Config × CompileEvent)) :
      ExceptT.adapt ProgramError.loading x d = ((x d).1.mapError .loading, (x d).2) := rfl
  rw [input, adapted, Disk.bind_apply, Config.load_apply, inputFrom]
  cases Config.readFrom d root with
  | error e => rfl
  | ok config =>
      simp only [Disk.bind_apply, CompileEvent.load_apply]
      cases CompileEvent.readFrom d event <;> rfl

theorem flatten_apply (save : Bool) (clipboard : Option String) :
    flatten Disk.storage root event save clipboard d =
      match inputFrom d root event with
      | .error e => (.error e, d)
      | .ok (config, announced) =>
        match LocalHost.conclude { root, clipboard, readOnly := !save } config.naming
          (announced.compilation.flatten config.policy) d with
        | (.ok f, d) => (.ok f.text, d)
        | (.error e, d) => (.error (.command e), d) := by
  rw [flatten, Disk.bind_apply, input_apply]
  rcases inputFrom d root event with _ | ⟨config, announced⟩
  · rfl
  · simp only [← flattenEvent_apply, Disk.bind_apply]
    generalize flattenEvent Disk.storage { root, clipboard, readOnly := !save } config announced =
      flattening
    have lifted : (liftM ((flattening.run.run {}).run []) :
        ExceptT ProgramError (StateM Disk) _) d =
          (.ok (flattening {} [] d).1, (flattening {} [] d).2) := rfl
    simp only [lifted]
    rcases flattening {} [] d with ⟨⟨⟨_ | _, _⟩, _⟩, _⟩ <;> rfl

theorem order_apply :
    order Disk.storage root event d =
      match inputFrom d root event with
      | .error e => (.error e, d)
      | .ok (config, announced) =>
        match announced.compilation.order config.policy with
        | .ok o => (.ok (listing o), d)
        | .error e => (.error (.command (.flattening e)), d) := by
  rw [order, Disk.bind_apply, input_apply]
  rcases inputFrom d root event with _ | ⟨config, announced⟩
  · rfl
  · cases ordered : announced.compilation.order config.policy <;> simp only [ordered] <;> rfl

/-- How a run ends when its action ends with the result. -/
def ending : Except ProgramError String → Outcome
  | .ok output => { exit := 0, output }
  | .error e => { exit := 1, failure := some e.message }

theorem run_apply (arguments : List String) :
    run Disk.storage arguments d =
      match CommandLine.parse arguments with
      | none => ({ exit := 2 }, d)
      | some invocation =>
        (ending (perform Disk.storage invocation.root invocation.action d).1,
          (perform Disk.storage invocation.root invocation.action d).2) := by
  unfold run
  cases CommandLine.parse arguments with
  | none => rfl
  | some invocation =>
      simp only [bind, StateT.bind, ExceptT.run]
      rcases perform Disk.storage invocation.root invocation.action d with ⟨_ | _, d⟩ <;> rfl

end Program

end ImportFlattening
