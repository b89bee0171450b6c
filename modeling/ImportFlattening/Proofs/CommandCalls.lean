import ImportFlattening.Session

/-! # What a command does

A command changes the session in a way that its host has no influence on (`Session.after`). Then
it makes calls, which the session determines up to the first that fails (`Host.ask`,
`Session.conclude`). The equations of this module are about hosts with a state of any type, so that
the answers may follow any pattern.
-/

namespace ImportFlattening

variable {σ α β : Type}

/-- Make the calls one after the other up to the first that fails. -/
def Host.ask (host : Host (StateM σ)) : List HostCall → σ → Except HostError Unit × σ
  | [], w => (.ok (), w)
  | call :: rest, w =>
    match host call w with
    | (.ok _, w) => Host.ask host rest w
    | (.error e, w) => (.error e, w)

namespace Session

/-- Make the calls for a result and report what fails, be it the result or a call. -/
def conclude (host : Host (StateM σ)) (calls : α → List HostCall) :
    Except Error α → σ → Except CommandError α × σ
  | .error e, w => (.error (.flattening e), (host (.status (.failed e.message)) w).2)
  | .ok a, w =>
    match Host.ask host (calls a) w with
    | (.ok _, w) => (.ok a, w)
    | (.error e, w) => (.error (.host e), (host (.status (.failed e.message)) w).2)

/-- The session that a command leaves. -/
def after (config : Config) (s : Session) : Command → Session
  | .compiled event => { compilation := some event.compilation }
  | .flatten =>
    match flattenLatest s.compilation config.policy with
    | .ok f => { s with flattened := some f }
    | .error _ => s
  | .save => s

variable (host : Host (StateM σ)) (config : Config) (s : Session) (w : σ)

theorem bind_apply (x : Run (StateM σ) α) (next : α → Run (StateM σ) β) :
    (x >>= next) s w =
      match x s w with
      | ((.ok a, s), w) => next a s w
      | ((.error e, s), w) => ((.error e, s), w) := by
  simp only [bind, ExceptT.bind, ExceptT.mk, StateT.bind]
  rcases x s w with ⟨⟨_ | _, _⟩, _⟩ <;> rfl

theorem discard_apply (x : Run (StateM σ) α) :
    (discard x : Run (StateM σ) PUnit) s w =
      (((x s w).1.1.map fun _ => ⟨⟩, (x s w).1.2), (x s w).2) := by
  simp only [discard, Functor.mapConst, ExceptT.map, ExceptT.mk, Function.comp_apply, bind,
    StateT.bind]
  rcases x s w with ⟨⟨_ | _, _⟩, _⟩ <;> rfl

theorem callAll_apply (calls : List HostCall) :
    callAll host calls s w =
      (((Host.ask host calls w).1.mapError .host, s), (Host.ask host calls w).2) := by
  induction calls generalizing w with
  | nil => rfl
  | cons call rest ih =>
      have asked : (liftM (host call).run : Run (StateM σ) _) s w =
          ((.ok (host call w).1, s), (host call w).2) := rfl
      simp only [callAll, List.forM_eq_forM, List.forM_cons, bind_apply, asked, Host.ask] at ih ⊢
      rcases host call w with ⟨_ | _, w'⟩
      · rfl
      · exact ih w'

theorem reporting_apply (command : Run (StateM σ) α) :
    reporting host command s w =
      match command s w with
      | ((.ok a, s), w) => ((.ok a, s), w)
      | ((.error e, s), w) => ((.error e, s), (host (.status (.failed e.message)) w).2) := by
  simp only [reporting, tryCatch, tryCatchThe, MonadExceptOf.tryCatch, ExceptT.tryCatch, ExceptT.mk,
    bind, StateT.bind]
  rcases command s w with ⟨⟨_ | _, _⟩, _⟩ <;> rfl

theorem compilationFinished_apply (event : CompileEvent) :
    compilationFinished host event s w =
      ((((host (.status .idle) w).1.mapError .host).map fun _ => actionLabel event.file,
        s.after config (.compiled event)), (host (.status .idle) w).2) := by
  have stored : (set { compilation := some event.compilation : Session } : Run (StateM σ) _) s w =
      ((.ok ⟨⟩, s.after config (.compiled event)), w) := rfl
  simp only [compilationFinished, bind_apply, stored, callAll_apply, Host.ask]
  rcases host (.status .idle) w with ⟨_ | _, _⟩ <;> rfl

theorem flatten_apply :
    flatten host config s w =
      let ended := conclude host (deliveries config.naming)
        (flattenLatest s.compilation config.policy) w
      ((ended.1, s.after config .flatten), ended.2) := by
  have read : (get : Run (StateM σ) Session) s w = ((.ok s, s), w) := rfl
  rw [flatten, reporting_apply]
  simp only [bind_apply, read, after]
  cases flattenLatest s.compilation config.policy with
  | error e => rfl
  | ok f =>
      have computed : (orFail (.ok f) : Run (StateM σ) Flattened) s w = ((.ok f, s), w) := rfl
      have cached : (modify ({ · with flattened := some f }) : Run (StateM σ) _) s w =
          ((.ok ⟨⟩, { s with flattened := some f }), w) := rfl
      simp only [computed, cached, callAll_apply, conclude]
      rcases Host.ask host (deliveries config.naming f) w with ⟨_ | _, _⟩ <;> rfl

theorem save_apply :
    save host config s w =
      let ended := conclude host (savings config.naming) s.saveable w
      ((ended.1.map fun f => config.naming.outputPath f.target, s), ended.2) := by
  have read : (get : Run (StateM σ) Session) s w = ((.ok s, s), w) := rfl
  rw [save, reporting_apply]
  simp only [bind_apply, read]
  cases s.saveable with
  | error e => rfl
  | ok f =>
      have computed : (orFail (.ok f) : Run (StateM σ) Flattened) s w = ((.ok f, s), w) := rfl
      simp only [computed, callAll_apply, conclude]
      rcases Host.ask host (savings config.naming f) w with ⟨_ | _, _⟩ <;> rfl

theorem execute_compiled (event : CompileEvent) :
    execute host config (.compiled event) s w =
      (((host (.status .idle) w).1.mapError .host, s.after config (.compiled event)),
        (host (.status .idle) w).2) := by
  rw [execute, discard_apply, compilationFinished_apply host config]
  rcases host (.status .idle) w with ⟨_ | _, _⟩ <;> rfl

theorem execute_flatten :
    execute host config .flatten s w =
      let ended := conclude host (deliveries config.naming)
        (flattenLatest s.compilation config.policy) w
      ((ended.1.map fun _ => ⟨⟩, s.after config .flatten), ended.2) := by
  rw [execute, discard_apply, flatten_apply]

theorem execute_save :
    execute host config .save s w =
      let ended := conclude host (savings config.naming) s.saveable w
      ((ended.1.map fun _ => ⟨⟩, s.after config .save), ended.2) := by
  rw [execute, discard_apply, save_apply]
  rcases conclude host (savings config.naming) s.saveable w with ⟨_ | _, _⟩ <;> rfl

theorem execute_after (command : Command) :
    (execute host config command s w).1.2 = s.after config command := by
  cases command with
  | compiled event => rw [execute_compiled]
  | flatten => rw [execute_flatten]
  | save => rw [execute_save]

theorem run_cons (command : Command) (rest : List Command) :
    run host config (command :: rest) s w =
      run host config rest (s.after config command) (execute host config command s w).2 := by
  rw [← execute_after host config s w command]
  rfl

theorem run_after (commands : List Command) :
    (run host config commands s w).1.2 = commands.foldl (after config) s := by
  induction commands generalizing s w with
  | nil => rfl
  | cons command rest ih => rw [run_cons, ih, List.foldl_cons]

end Session

end ImportFlattening
