import ImportFlattening.Proofs.SessionHistory

/-! # The calls of a run

A journal keeps every call of a session together with the host's answer. A run's journal has one
block for each command (`Session.record`), and a block is settled by the session before the command
and by the answers (`JournalEntry.Conforms`): calls up to the first that fails, then a report of
that.
-/

namespace ImportFlattening

variable {σ α : Type}

structure Exchange where
  call : HostCall
  answer : Except HostError Unit

/-- The host together with a journal of its exchanges. -/
def Host.journalled (host : Host (StateM σ)) : Host (StateM (List Exchange × σ)) :=
  fun call (journal, w) =>
    let (answer, w) := host call w
    (answer, journal ++ [⟨call, answer⟩], w)

theorem Host.journalled_apply {host : Host (StateM σ)} {call : HostCall} {w w' : σ}
    {answer : Except HostError Unit} (answered : host call w = (answer, w'))
    (journal : List Exchange) :
    host.journalled call (journal, w) = (answer, (journal ++ [⟨call, answer⟩], w')) := by
  simp only [Host.journalled, answered]

/-- The exchanges when the calls are made one after the other up to the first that fails. -/
inductive Attempted : List HostCall → List Exchange → Except HostError Unit → Prop where
  | all : Attempted [] [] (.ok ())
  | accepted (call : HostCall) {rest : List HostCall} {exchanges : List Exchange}
      {outcome : Except HostError Unit} (later : Attempted rest exchanges outcome) :
      Attempted (call :: rest) (⟨call, .ok ()⟩ :: exchanges) outcome
  | refused (call : HostCall) (rest : List HostCall) (e : HostError) :
      Attempted (call :: rest) [⟨call, .error e⟩] (.error e)

/-- The exchanges of a command that makes `calls` for what it computes. A failure, of the
computation or of a call, is reported and is the outcome; the answer to the report counts for
nothing. -/
inductive Concluded (calls : α → List HostCall) :
    Except Error α → List Exchange → Except CommandError α → Prop where
  | unable (e : Error) (answer : Except HostError Unit) :
      Concluded calls (.error e) [⟨.status (.failed e.message), answer⟩] (.error (.flattening e))
  | done {a : α} {exchanges : List Exchange} (attempted : Attempted (calls a) exchanges (.ok ())) :
      Concluded calls (.ok a) exchanges (.ok a)
  | stopped {a : α} {exchanges : List Exchange} {e : HostError}
      (attempted : Attempted (calls a) exchanges (.error e)) (answer : Except HostError Unit) :
      Concluded calls (.ok a) (exchanges ++ [⟨.status (.failed e.message), answer⟩])
        (.error (.host e))

theorem Attempted.of_split {calls : List HostCall} {exchanges before later : List Exchange}
    {outcome : Except HostError Unit} {x : Exchange} (attempted : Attempted calls exchanges outcome)
    (split : exchanges = before ++ x :: later) :
    (∃ rest, calls = before.map Exchange.call ++ x.call :: rest) ∧
      ∀ y ∈ before, y.answer = .ok () := by
  induction attempted generalizing before with
  | all => simp at split
  | @accepted call rest _ _ _ ih =>
      cases before with
      | nil =>
          obtain ⟨rfl, rfl⟩ := List.cons.inj split
          exact ⟨⟨rest, rfl⟩, by simp⟩
      | cons y before =>
          obtain ⟨rfl, tail⟩ := List.cons.inj split
          obtain ⟨⟨rest, rfl⟩, accepted⟩ := ih tail
          exact ⟨⟨rest, rfl⟩, by simpa using accepted⟩
  | refused call rest e =>
      cases before with
      | nil =>
          obtain ⟨rfl, rfl⟩ := List.cons.inj split
          exact ⟨⟨rest, rfl⟩, by simp⟩
      | cons y before => simp at split

theorem Concluded.of_split {calls : α → List HostCall} {computed : Except Error α}
    {exchanges before later : List Exchange} {outcome : Except CommandError α} {x : Exchange}
    (concluded : Concluded calls computed exchanges outcome)
    (split : exchanges = before ++ x :: later) :
    (∃ message, x.call = .status (.failed message)) ∨
      ∃ a, computed = .ok a ∧ (∃ rest, calls a = before.map Exchange.call ++ x.call :: rest) ∧
        ∀ y ∈ before, y.answer = .ok () := by
  cases concluded with
  | unable e answer =>
      have only : x = ⟨.status (.failed e.message), answer⟩ := by
        cases before <;> simp_all
      exact .inl ⟨_, congrArg Exchange.call only⟩
  | done attempted => exact .inr ⟨_, rfl, attempted.of_split split⟩
  | @stopped _ _ e attempted answer =>
      rcases List.append_eq_append_iff.mp split with ⟨more, rfl, report⟩ | ⟨more, own, report⟩
      · have only : x = ⟨.status (.failed e.message), answer⟩ := by
          cases more <;> simp_all
        exact .inl ⟨_, congrArg Exchange.call only⟩
      · cases more with
        | nil => exact .inl ⟨_, congrArg Exchange.call (List.cons.inj report).1⟩
        | cons y more =>
            obtain ⟨rfl, -⟩ := List.cons.inj report
            exact .inr ⟨_, rfl, attempted.of_split own⟩

/-- What a journal says of one command. -/
structure JournalEntry where
  command : Command
  exchanges : List Exchange
  outcome : Except CommandError Unit

/-- What there is to save in a session: nothing before a compilation, nothing before it has been
flattened, and then the text. -/
inductive Session.Holds (s : Session) : Except Error Flattened → Prop where
  | uncompiled (none : s.compilation = none) : Holds s (.error .noCompilation)
  | unflattened {c : Compilation} (compiled : s.compilation = some c) (none : s.flattened = none) :
      Holds s (.error (.notFlattened c.target))
  | text {c : Compilation} {f : Flattened} (compiled : s.compilation = some c)
      (flattened : s.flattened = some f) : Holds s (.ok f)

theorem Session.holds_saveable (s : Session) : s.Holds s.saveable := by
  rcases s with ⟨_ | c, _ | f⟩
  · exact .uncompiled rfl
  · exact .uncompiled rfl
  · exact .unflattened rfl rfl
  · exact .text rfl rfl

/-- The entry is one for a command to the session `s`. -/
inductive JournalEntry.Conforms (config : Config) (s : Session) : JournalEntry → Prop where
  | compiled (event : CompileEvent) (answer : Except HostError Unit) :
      Conforms config s ⟨.compiled event, [⟨.status .idle, answer⟩], answer.mapError .host⟩
  | flatten {exchanges : List Exchange} {outcome : Except CommandError Flattened}
      (concluded : Concluded
        (fun f => [.clipboard f.text, .file (config.naming.outputPath f.target) f.text,
          .status (.succeeded "Contract flattened"), .alert "Contract flattened"])
        (flattenLatest s.compilation config.policy) exchanges outcome) :
      Conforms config s ⟨.flatten, exchanges, outcome.map fun _ => ()⟩
  | save {kept : Except Error Flattened} {exchanges : List Exchange}
      {outcome : Except CommandError Flattened} (holds : s.Holds kept)
      (concluded : Concluded
        (fun f => [.file (config.naming.outputPath f.target) f.text,
          .status (.saved ("Saved " ++ config.naming.outputPath f.target))])
        kept exchanges outcome) :
      Conforms config s ⟨.save, exchanges, outcome.map fun _ => ()⟩

/-- A success is shown only after the host has accepted the text twice. -/
theorem JournalEntry.Conforms.succeeded_after {config : Config} {s : Session} {entry : JournalEntry}
    (conforms : entry.Conforms config s) {before later : List Exchange} {status : Status}
    {answer : Except HostError Unit}
    (split : entry.exchanges = before ++ ⟨.status status, answer⟩ :: later)
    (succeeded : status.key = .succeed) :
    ∃ path text, before = [⟨.clipboard text, .ok ()⟩, ⟨.file path text, .ok ()⟩] := by
  cases conforms with
  | compiled event first =>
      have only : status = .idle := by
        cases before <;> simp_all
      rw [only] at succeeded
      cases succeeded
  | flatten concluded =>
      rcases concluded.of_split split with ⟨message, report⟩ | ⟨f, -, ⟨rest, calls⟩, accepted⟩
      · cases report
        cases succeeded
      · -- only the third call is a status
        match before with
        | [] | [_] | [_, _, _] | _ :: _ :: _ :: _ :: _ => simp at calls
        | [⟨_, _⟩, ⟨_, _⟩] =>
            obtain ⟨rfl, rfl, -⟩ := by simpa using calls
            obtain ⟨rfl, rfl⟩ := by simpa using accepted
            exact ⟨_, _, rfl⟩
  | save _ concluded =>
      rcases concluded.of_split split with ⟨message, report⟩ | ⟨f, -, ⟨rest, calls⟩, -⟩
      · cases report
        cases succeeded
      · match before with
        | [] | _ :: _ :: _ => simp at calls
        | [_] =>
            obtain ⟨-, rfl, -⟩ := by simpa using calls
            cases succeeded

/-- Each entry is one for its command to the session that the entries before it leave. -/
inductive Transcript (config : Config) : Session → List JournalEntry → Prop where
  | nil (s : Session) : Transcript config s []
  | cons {s : Session} {entry : JournalEntry} {rest : List JournalEntry}
      (conforms : entry.Conforms config s)
      (later : Transcript config (s.after config entry.command) rest) :
      Transcript config s (entry :: rest)

theorem Transcript.conforms {config : Config} {s : Session} {before later : List JournalEntry}
    {entry : JournalEntry} (transcript : Transcript config s (before ++ entry :: later)) :
    entry.Conforms config ((before.map JournalEntry.command).foldl (Session.after config) s) := by
  induction before generalizing s with
  | nil =>
      cases transcript with
      | cons conforms _ => exact conforms
  | cons first before ih =>
      cases transcript with
      | cons _ rest => exact ih rest

namespace Session

/-- What the journal says of the commands when they are executed one after the other. -/
def record (host : Host (StateM σ)) (config : Config) :
    List Command → Session → σ → List JournalEntry
  | [], _, _ => []
  | command :: rest, s, w =>
    let ((outcome, s), (exchanges, w)) := execute host.journalled config command s ([], w)
    ⟨command, exchanges, outcome⟩ :: record host config rest s w

variable (host : Host (StateM σ)) (config : Config) (s : Session) (w : σ)

theorem ask_journalled (calls : List HostCall) :
    ∃ exchanges outcome w', Attempted calls exchanges outcome ∧
      ∀ journal, Host.ask host.journalled calls (journal, w) =
        (outcome, (journal ++ exchanges, w')) := by
  induction calls generalizing w with
  | nil => exact ⟨[], .ok (), w, .all, by simp [Host.ask]⟩
  | cons call rest ih =>
      rcases answered : host call w with ⟨answer, w₁⟩
      have first := Host.journalled_apply answered
      cases answer with
      | error e => exact ⟨_, _, w₁, .refused call rest e, by simp [Host.ask, first]⟩
      | ok =>
          obtain ⟨exchanges, outcome, w', attempted, later⟩ := ih w₁
          exact ⟨_, _, w', .accepted call attempted, by simp [Host.ask, first, later]⟩

theorem conclude_journalled (calls : α → List HostCall) (computed : Except Error α) :
    ∃ exchanges outcome w', Concluded calls computed exchanges outcome ∧
      ∀ journal, conclude host.journalled calls computed (journal, w) =
        (outcome, (journal ++ exchanges, w')) := by
  cases computed with
  | error e => exact ⟨_, _, _, .unable e _, fun journal => rfl⟩
  | ok a =>
      obtain ⟨exchanges, outcome, w', attempted, asked⟩ := ask_journalled host w (calls a)
      cases outcome with
      | ok => exact ⟨exchanges, .ok a, w', .done attempted, by simp [conclude, asked]⟩
      | error e =>
          rcases answered : host (.status (.failed e.message)) w' with ⟨answer, w₁⟩
          have reported := Host.journalled_apply answered
          exact ⟨_, _, w₁, .stopped attempted answer, by simp [conclude, asked, reported]⟩

theorem execute_journalled (command : Command) :
    ∃ exchanges outcome w', JournalEntry.Conforms config s ⟨command, exchanges, outcome⟩ ∧
      ∀ journal, execute host.journalled config command s (journal, w) =
        ((outcome, s.after config command), (journal ++ exchanges, w')) := by
  cases command with
  | compiled event =>
      exact ⟨_, _, _, .compiled event _, fun journal => by rw [execute_compiled]; rfl⟩
  | flatten =>
      obtain ⟨exchanges, outcome, w', concluded, ended⟩ := conclude_journalled host w
        (deliveries config.naming) (flattenLatest s.compilation config.policy)
      exact ⟨_, _, w', .flatten concluded, fun journal => by rw [execute_flatten, ended]⟩
  | save =>
      obtain ⟨exchanges, outcome, w', concluded, ended⟩ := conclude_journalled host w
        (savings config.naming) s.saveable
      exact ⟨_, _, w', .save s.holds_saveable concluded,
        fun journal => by rw [execute_save, ended]⟩

theorem record_cons (command : Command) (rest : List Command) :
    ∃ entry w', entry.command = command ∧ entry.Conforms config s ∧
      record host config (command :: rest) s w =
        entry :: record host config rest (s.after config command) w' ∧
      ∀ journal, run host.journalled config (command :: rest) s (journal, w) =
        run host.journalled config rest (s.after config command)
          (journal ++ entry.exchanges, w') := by
  obtain ⟨exchanges, outcome, w', conforms, executed⟩ := execute_journalled host config s w command
  refine ⟨⟨command, exchanges, outcome⟩, w', rfl, conforms, ?_, fun journal => ?_⟩
  · simp only [record, executed, List.nil_append]
  · rw [run_cons, executed]

theorem map_command_record (commands : List Command) :
    (record host config commands s w).map JournalEntry.command = commands := by
  induction commands generalizing s w with
  | nil => rfl
  | cons command rest ih =>
      obtain ⟨entry, w', same, -, recorded, -⟩ := record_cons host config s w command rest
      rw [recorded, List.map_cons, same, ih]

theorem transcript_record (commands : List Command) :
    Transcript config s (record host config commands s w) := by
  induction commands generalizing s w with
  | nil => exact .nil s
  | cons command rest ih =>
      obtain ⟨entry, w', rfl, conforms, recorded, -⟩ := record_cons host config s w command rest
      rw [recorded]
      exact .cons conforms (ih _ w')

theorem run_journal (commands : List Command) (journal : List Exchange) :
    (run host.journalled config commands s (journal, w)).2.1 =
      journal ++ (record host config commands s w).flatMap JournalEntry.exchanges := by
  induction commands generalizing s w journal with
  | nil => exact (List.append_nil journal).symm
  | cons command rest ih =>
      obtain ⟨entry, w', -, -, recorded, executed⟩ := record_cons host config s w command rest
      rw [recorded, executed, ih, List.flatMap_cons, List.append_assoc]

/-- A host that fails alerts only. -/
def alertless : Host (StateM Unit) := fun call w =>
  (if call.kind = "alert" then .error (.unavailable call.kind) else .ok (), w)

def flattenChained : List Command := [.compiled (.ofCompilation Compilation.chained), .flatten]

theorem record_alertless :
    record alertless {} flattenChained {} () =
      [⟨.compiled (.ofCompilation Compilation.chained), [⟨.status .idle, .ok ()⟩], .ok ()⟩,
        ⟨.flatten,
          [⟨.clipboard chainedText, .ok ()⟩, ⟨.file "browser/A_flat.sol" chainedText, .ok ()⟩,
            ⟨.status (.succeeded "Contract flattened"), .ok ()⟩,
            ⟨.alert "Contract flattened", .error (.unavailable "alert")⟩,
            ⟨.status (.failed "alert unavailable"), .ok ()⟩],
          .error (.host (.unavailable "alert"))⟩] := by
  simp only [flattenChained, record, execute_compiled, execute_flatten, after,
    CompileEvent.ofCompilation, flatten_chained]
  rfl

end Session

end ImportFlattening
