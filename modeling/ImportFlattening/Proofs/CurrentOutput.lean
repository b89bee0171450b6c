import ImportFlattening.Proofs.CallJournal

/-! # Only current output leaves a session

A text that a session hands to its host, to be copied or to be kept as a file, is what the last
compilation before that call is flattened to. A command to save relies on a text that an earlier
command has left, so this rests on what the session remembers (`Session.Remembers`).
-/

namespace ImportFlattening

open Command (Latest)

variable {α β σ : Type}

theorem Compilation.target_of_flatten {c : Compilation} {policy : Policy} {f : Flattened}
    (flat : c.flatten policy = .ok f) : f.target = c.target := by
  simp only [flatten, bind, Except.bind] at flat
  cases ordered : c.order policy with
  | error e => simp [ordered] at flat
  | ok o =>
      cases joined : FlatText.concatenate c.texts o.names with
      | error e => simp [ordered, joined] at flat
      | ok text =>
          simp only [ordered, joined] at flat
          cases flat
          rfl

/-- A text that the call hands over is what the last compilation among the commands is flattened to,
and a path is the one for its target. -/
def HostCall.Current (config : Config) (commands : List Command) : HostCall → Prop
  | .clipboard text => ∃ c since f, Latest commands c since ∧
      flattenLatest (some c) config.policy = .ok f ∧ text = f.text
  | .file path text => ∃ c since f, Latest commands c since ∧
      flattenLatest (some c) config.policy = .ok f ∧
      path = config.naming.outputPath c.target ∧ text = f.text
  | .status _ => True
  | .alert _ => True

namespace HostCall

variable {config : Config} {commands since : List Command} {c : Compilation} {f : Flattened}

theorem current_clipboard (latest : Latest commands c since)
    (flat : flattenLatest (some c) config.policy = .ok f) :
    (HostCall.clipboard f.text).Current config commands :=
  ⟨c, since, f, latest, flat, rfl⟩

theorem current_file (latest : Latest commands c since)
    (flat : flattenLatest (some c) config.policy = .ok f) :
    (HostCall.file (config.naming.outputPath f.target) f.text).Current config commands := by
  rw [Compilation.target_of_flatten flat]
  exact ⟨c, since, f, latest, flat, rfl, rfl⟩

end HostCall

/-- The exchanges that are about files. -/
def fileExchanges (exchanges : List Exchange) : List Exchange :=
  exchanges.filter (·.call.kind = "file")

namespace Concluded

variable {calls : α → List HostCall} {computed : Except Error α} {exchanges : List Exchange}
  {outcome : Except CommandError α}

theorem forall_call {p : HostCall → Prop} (concluded : Concluded calls computed exchanges outcome)
    (report : ∀ message, p (.status (.failed message)))
    (made : ∀ a, computed = .ok a → ∀ call ∈ calls a, p call) : ∀ x ∈ exchanges, p x.call := by
  intro x member
  obtain ⟨before, later, split⟩ := List.append_of_mem member
  rcases concluded.of_split split with ⟨message, reported⟩ | ⟨a, computed, ⟨rest, calls⟩, -⟩
  · rw [reported]
    exact report message
  · exact made a computed x.call (by simp [calls])

theorem map_outcome_flattening_iff (concluded : Concluded calls computed exchanges outcome)
    (g : α → β) (e : Error) : outcome.map g = .error (.flattening e) ↔ computed = .error e := by
  cases concluded <;> simp [Except.map]

theorem fileExchanges_unable {e : Error}
    (concluded : Concluded calls (.error e) exchanges outcome) : fileExchanges exchanges = [] := by
  cases concluded
  rfl

end Concluded

/-- However the host answers, a text is saved by one call for a file. -/
theorem Concluded.saved_once {naming : OutputNaming} {f : Flattened} {exchanges : List Exchange}
    {outcome : Except CommandError Flattened}
    (concluded : Concluded (Session.savings naming) (.ok f) exchanges outcome) :
    (∃ answer,
      fileExchanges exchanges = [⟨.file (naming.outputPath f.target) f.text, answer⟩]) ∧
      ((∀ x ∈ exchanges, x.answer = .ok ()) ↔
        (outcome.map fun f => naming.outputPath f.target) = .ok (naming.outputPath f.target)) := by
  cases concluded with
  | done attempted =>
      cases attempted with
      | accepted _ later =>
          cases later with
          | accepted _ later =>
              cases later
              exact ⟨⟨_, rfl⟩, by simp [Except.map]⟩
  | stopped attempted answer =>
      cases attempted with
      | refused => exact ⟨⟨_, rfl⟩, by simp [Except.map]⟩
      | accepted _ later =>
          cases later with
          | refused => exact ⟨⟨_, rfl⟩, by simp [Except.map]⟩
          | accepted _ later => cases later

namespace Session

namespace Remembers

variable {config : Config} {commands : List Command} {s : Session} {f : Flattened}

theorem of_flattenLatest (remembers : Remembers config commands s)
    (flat : flattenLatest s.compilation config.policy = .ok f) :
    ∃ c since, Latest commands c since ∧ flattenLatest (some c) config.policy = .ok f := by
  cases remembers with
  | nothing => cases flat
  | latest latest => exact ⟨_, _, latest, flat⟩

theorem of_holds (remembers : Remembers config commands s) (holds : s.Holds (.ok f)) :
    ∃ c since, Latest commands c since ∧ flattenLatest (some c) config.policy = .ok f := by
  cases holds with
  | text _ flattened =>
      cases remembers with
      | nothing => cases flattened
      | @latest c since _ latest cached =>
          exact ⟨c, since, latest, ((cached f).mp flattened).2⟩

theorem noCompilation_iff (remembers : Remembers config commands s) :
    s.saveable = .error .noCompilation ↔ ∀ event, .compiled event ∉ commands := by
  cases remembers with
  | nothing none => exact ⟨fun _ => none, fun _ => rfl⟩
  | @latest c since flattened latest _ =>
      obtain ⟨event, member⟩ := latest.mem
      constructor
      · intro unable
        cases flattened <;> cases unable
      · intro none
        exact absurd member (none event)

theorem notFlattened_iff (remembers : Remembers config commands s) {c : Compilation}
    {since : List Command} (latest : Latest commands c since) :
    s.saveable = .error (.notFlattened c.target) ↔
      .flatten ∉ since ∨ ∃ e, flattenLatest (some c) config.policy = .error e := by
  obtain ⟨compilation, cached⟩ := remembers.of_latest latest
  cases flattened : s.flattened with
  | none =>
      have unable : s.saveable = .error (.notFlattened c.target) := by
        simp only [saveable, compilation, flattened]
      refine iff_of_true unable ?_
      cases result : flattenLatest (some c) config.policy with
      | error e => exact .inr ⟨e, rfl⟩
      | ok f =>
          left
          intro ran
          simpa [flattened] using (cached f).mpr ⟨ran, result⟩
  | some f =>
      obtain ⟨ran, result⟩ := (cached f).mp flattened
      simp [saveable, compilation, flattened, ran, result]

theorem saveable_of_flattened (remembers : Remembers config commands s) {c : Compilation}
    {since : List Command} (latest : Latest commands c since) (ran : .flatten ∈ since)
    (flat : flattenLatest (some c) config.policy = .ok f) : s.saveable = .ok f := by
  obtain ⟨compilation, cached⟩ := remembers.of_latest latest
  simp only [saveable, compilation, (cached f).mpr ⟨ran, flat⟩]

end Remembers

/-- The calls of a command hand over the output of the last compilation, if anything. -/
theorem Remembers.current_calls {config : Config} {commands : List Command} {s : Session}
    (remembers : Remembers config commands s) {entry : JournalEntry}
    (conforms : entry.Conforms config s) :
    ∀ x ∈ entry.exchanges, x.call.Current config (commands ++ [entry.command]) := by
  cases conforms with
  | compiled event answer =>
      intro x member
      obtain rfl := List.mem_singleton.mp member
      trivial
  | flatten concluded =>
      apply concluded.forall_call (p := HostCall.Current config (commands ++ [Command.flatten]))
        (fun _ => trivial)
      intro f flat
      obtain ⟨c, since, latest, flat⟩ := remembers.of_flattenLatest flat
      have later : Latest (commands ++ [.flatten]) c (since ++ [.flatten]) :=
        latest.concat (by simp)
      simp only [List.forall_mem_cons]
      exact ⟨HostCall.current_clipboard later flat, HostCall.current_file later flat, trivial,
        trivial, by simp⟩
  | save holds concluded =>
      apply concluded.forall_call (p := HostCall.Current config (commands ++ [Command.save]))
        (fun _ => trivial)
      rintro f rfl
      obtain ⟨c, since, latest, flat⟩ := remembers.of_holds holds
      have later : Latest (commands ++ [.save]) c (since ++ [.save]) := latest.concat (by simp)
      simp only [List.forall_mem_cons]
      exact ⟨HostCall.current_file later flat, trivial, by simp⟩

theorem current_of_record {host : Host (StateM σ)} {config : Config} {commands : List Command}
    {w : σ} {before later : List JournalEntry} {entry : JournalEntry}
    (split : record host config commands {} w = before ++ entry :: later) :
    ∀ x ∈ entry.exchanges,
      x.call.Current config ((before ++ [entry]).map JournalEntry.command) := by
  have transcript := transcript_record host config {} w commands
  rw [split] at transcript
  have remembers := (Remembers.start config).foldl (before.map JournalEntry.command)
  simpa using remembers.current_calls transcript.conforms

theorem save_journalled (host : Host (StateM σ)) (config : Config) (s : Session) (w : σ) :
    ∃ exchanges outcome w', Concluded (savings config.naming) s.saveable exchanges outcome ∧
      ∀ journal, save host.journalled config s (journal, w) =
        ((outcome.map fun f => config.naming.outputPath f.target, s),
          (journal ++ exchanges, w')) := by
  obtain ⟨exchanges, outcome, w', concluded, ended⟩ :=
    conclude_journalled host w (savings config.naming) s.saveable
  exact ⟨exchanges, outcome, w', concluded, fun journal => by rw [save_apply, ended]⟩

/-- Every text that a run hands over is the output of the last compilation before that call. A
command to save is refused if and only if there is no such output, and else makes one call for a
file; its answer is the path if nothing fails. -/
theorem only_current_output_leaves (host : Host (StateM σ)) (config : Config)
    (commands : List Command) (w : σ) :
    ((record host config commands {} w).map JournalEntry.command = commands ∧
      (run host.journalled config commands {} ([], w)).2.1 =
        (record host config commands {} w).flatMap JournalEntry.exchanges ∧
      ∀ before entry later, record host config commands {} w = before ++ entry :: later →
        ∀ x ∈ entry.exchanges,
          x.call.Current config ((before ++ [entry]).map JournalEntry.command)) ∧
    ∀ s s' w' w'' result exchanges, run host config commands {} w = (((), s), w') →
      save host.journalled config s ([], w') = ((result, s'), (exchanges, w'')) →
      (result = .error (.flattening .noCompilation) ↔ ∀ event, .compiled event ∉ commands) ∧
      (∀ e, result = .error (.flattening e) → fileExchanges exchanges = []) ∧
      ∀ c since, Latest commands c since →
        (result = .error (.flattening (.notFlattened c.target)) ↔
          .flatten ∉ since ∨ ∃ e, flattenLatest (some c) config.policy = .error e) ∧
        ∀ f, .flatten ∈ since → flattenLatest (some c) config.policy = .ok f →
          (∃ answer, fileExchanges exchanges =
            [⟨.file (config.naming.outputPath c.target) f.text, answer⟩]) ∧
          ((∀ x ∈ exchanges, x.answer = .ok ()) ↔
            result = .ok (config.naming.outputPath c.target)) := by
  have remembers : Remembers config commands (commands.foldl (after config) {}) :=
    (Remembers.start config).foldl commands
  have journal := run_journal host config {} w commands []
  rw [List.nil_append] at journal
  refine ⟨⟨map_command_record host config {} w commands, journal,
    fun before entry later => current_of_record⟩, ?_⟩
  intro s s' w' w'' result exchanges ran saved
  obtain ⟨made, outcome, _, concluded, ended⟩ := save_journalled host config s w'
  obtain rfl : commands.foldl (after config) {} = s := by
    rw [← run_after host config {} w commands, ran]
  obtain ⟨⟨rfl, rfl⟩, rfl, rfl⟩ := by simpa using (ended []).symm.trans saved
  have unable := concluded.map_outcome_flattening_iff fun f => config.naming.outputPath f.target
  refine ⟨?_, ?_, ?_⟩
  · rw [unable, remembers.noCompilation_iff]
  · intro e failed
    rw [(unable e).mp failed] at concluded
    exact concluded.fileExchanges_unable
  · intro c since latest
    refine ⟨?_, ?_⟩
    · rw [unable, remembers.notFlattened_iff latest]
    · intro f flattened flat
      rw [remembers.saveable_of_flattened latest flattened flat] at concluded
      rw [← Compilation.target_of_flatten flat]
      exact concluded.saved_once

theorem alertless_saves_chained :
    (∃ entry ∈ record alertless {} flattenChained {} (), ∃ x ∈ entry.exchanges,
      x.call = .file "browser/A_flat.sol" chainedText ∧ x.call.Current {} flattenChained) ∧
    Latest flattenChained Compilation.chained [.flatten] ∧
    let reached := run alertless {} flattenChained {} ()
    let saved := save alertless.journalled {} reached.1.2 ([], reached.2)
    ∃ answer, fileExchanges saved.2.1 = [⟨.file "browser/A_flat.sol" chainedText, answer⟩] := by
  obtain ⟨⟨-, -, current⟩, saving⟩ := only_current_output_leaves alertless {} flattenChained ()
  have latest : Latest flattenChained Compilation.chained [.flatten] :=
    .append_cons [] (.ofCompilation Compilation.chained) (by simp)
  have second := current [_] _ [] record_alertless _ (.tail _ (.head _))
  refine ⟨?_, latest, ?_⟩
  · rw [record_alertless]
    exact ⟨_, .tail _ (.head _), _, .tail _ (.head _), rfl, second⟩
  · intro reached saved
    obtain ⟨-, -, ended⟩ := saving reached.1.2 _ reached.2 _ saved.1.1 saved.2.1 rfl rfl
    exact ((ended _ _ latest).2 _ (by simp) flatten_chained).1

end Session

end ImportFlattening
