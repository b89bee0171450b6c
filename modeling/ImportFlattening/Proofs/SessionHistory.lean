import ImportFlattening.Proofs.CommandCalls
import ImportFlattening.Proofs.ImportClosure

/-! # What a session remembers

Of the commands that a session has carried out, its state keeps the last compilation and what was
flattened from it since (`Session.Remembers`). Neither the answers of the host nor the way in which
the commands were handed over make a difference.
-/

namespace ImportFlattening

/-- The last compilation among the commands is `c`, and `since` are the commands after it. -/
structure Command.Latest (commands : List Command) (c : Compilation) (since : List Command) :
    Prop where
  arrived : ∃ before event, event.compilation = c ∧ commands = before ++ .compiled event :: since
  last : ∀ event, .compiled event ∉ since

namespace Command.Latest

variable {commands since since' : List Command} {c c' : Compilation}

theorem mem (latest : Latest commands c since) : ∃ event, .compiled event ∈ commands := by
  obtain ⟨before, event, -, rfl⟩ := latest.arrived
  exact ⟨event, by simp⟩

theorem append_cons (before : List Command) (event : CompileEvent)
    (last : ∀ event, .compiled event ∉ since) :
    Latest (before ++ .compiled event :: since) event.compilation since :=
  ⟨⟨before, event, rfl, rfl⟩, last⟩

theorem concat {command : Command} (latest : Latest commands c since)
    (other : ∀ event, command ≠ .compiled event) :
    Latest (commands ++ [command]) c (since ++ [command]) where
  arrived := by
    obtain ⟨before, event, same, rfl⟩ := latest.arrived
    exact ⟨before, event, same, by simp⟩
  last := by
    intro event member
    rcases List.mem_append.mp member with earlier | now
    · exact latest.last event earlier
    · exact other event (List.mem_singleton.mp now).symm

theorem unique (latest : Latest commands c since) (latest' : Latest commands c' since') :
    c = c' ∧ since = since' := by
  obtain ⟨⟨before, event, rfl, rfl⟩, last⟩ := latest
  obtain ⟨⟨before', event', rfl, split⟩, last'⟩ := latest'
  rcases List.append_eq_append_iff.mp split with ⟨between, -, rest⟩ | ⟨between, -, rest⟩
  · cases between with
    | nil => simp_all
    | cons first between =>
        obtain ⟨-, rfl⟩ := List.cons.inj rest
        exact absurd (by simp) (last event')
  · cases between with
    | nil => simp_all
    | cons first between =>
        obtain ⟨-, rfl⟩ := List.cons.inj rest
        exact absurd (by simp) (last' event)

end Command.Latest

namespace Session

open Command (Latest)

/-- The session holds what the commands, from the first on, leave in it. -/
inductive Remembers (config : Config) (commands : List Command) : Session → Prop where
  | nothing (none : ∀ event, .compiled event ∉ commands) : Remembers config commands {}
  | latest {c : Compilation} {since : List Command} {flattened : Option Flattened}
      (latest : Latest commands c since)
      (cached : ∀ f, flattened = some f ↔
        .flatten ∈ since ∧ flattenLatest (some c) config.policy = .ok f) :
      Remembers config commands ⟨some c, flattened⟩

namespace Remembers

variable {config : Config} {commands : List Command} {s : Session}

theorem compiled (config : Config) (commands : List Command) (event : CompileEvent) :
    Remembers config (commands ++ [.compiled event]) { compilation := some event.compilation } :=
  .latest (.append_cons commands event (by simp)) (by simp)

theorem flatten (remembers : Remembers config commands s) :
    Remembers config (commands ++ [.flatten]) (s.after config .flatten) := by
  cases remembers with
  | nothing none => exact .nothing (by simpa using none)
  | @latest c since flattened latest cached =>
      have later : Latest (commands ++ [.flatten]) c (since ++ [.flatten]) :=
        latest.concat (by simp)
      cases result : flattenLatest (some c) config.policy with
      | error e =>
          simp only [after, result]
          exact .latest later (by simp [cached, result])
      | ok f =>
          simp only [after, result]
          exact .latest later (by simp [result])

theorem save (remembers : Remembers config commands s) :
    Remembers config (commands ++ [.save]) s := by
  cases remembers with
  | nothing none => exact .nothing (by simpa using none)
  | latest latest cached =>
      exact .latest (latest.concat (by simp)) (by simpa using cached)

theorem step (remembers : Remembers config commands s) (command : Command) :
    Remembers config (commands ++ [command]) (s.after config command) := by
  cases command with
  | compiled event => exact .compiled config commands event
  | flatten => exact remembers.flatten
  | save => exact remembers.save

theorem foldl (remembers : Remembers config commands s) (next : List Command) :
    Remembers config (commands ++ next) (next.foldl (after config) s) := by
  induction next generalizing commands s with
  | nil => simpa using remembers
  | cons command rest ih => simpa using ih (remembers.step command)

theorem start (config : Config) : Remembers config [] {} := .nothing (by simp)

theorem without (remembers : Remembers config commands s)
    (none : ∀ event, .compiled event ∉ commands) : s = {} := by
  cases remembers with
  | nothing => rfl
  | latest latest =>
      obtain ⟨event, member⟩ := latest.mem
      exact absurd member (none event)

theorem of_latest (remembers : Remembers config commands s) {c : Compilation}
    {since : List Command} (latest : Latest commands c since) :
    s.compilation = some c ∧ ∀ f, s.flattened = some f ↔
      .flatten ∈ since ∧ flattenLatest (some c) config.policy = .ok f := by
  cases remembers with
  | nothing none =>
      obtain ⟨event, member⟩ := latest.mem
      exact absurd member (none event)
  | latest latest' cached =>
      obtain ⟨rfl, rfl⟩ := latest.unique latest'
      exact ⟨rfl, cached⟩

end Remembers

/-- How a client hands commands over: by a direct call for each, or several at once to be run. -/
inductive Dealing where
  | compiled (event : CompileEvent)
  | flatten
  | save
  | run (commands : List Command)

namespace Dealing

def commands : Dealing → List Command
  | compiled event => [.compiled event]
  | flatten => [.flatten]
  | save => [.save]
  | run commands => commands

variable {m : Type → Type} [Monad m] {σ : Type}

def perform (host : Host m) (config : Config) : Dealing → StateT Session m Unit
  | compiled event => discard (compilationFinished host event).run
  | flatten => discard (Session.flatten host config).run
  | save => discard (Session.save host config).run
  | run commands => Session.run host config commands

theorem perform_after (host : Host (StateM σ)) (config : Config) (dealing : Dealing) (s : Session)
    (w : σ) :
    (dealing.perform host config s w).1.2 = dealing.commands.foldl (after config) s := by
  cases dealing with
  | compiled event => exact congrArg (·.1.2) (compilationFinished_apply host config s w event)
  | flatten => exact congrArg (·.1.2) (flatten_apply host config s w)
  | save => exact congrArg (·.1.2) (save_apply host config s w)
  | run commands => exact run_after host config s w commands

theorem forM_perform_after (host : Host (StateM σ)) (config : Config) (dealings : List Dealing)
    (s : Session) (w : σ) :
    (dealings.forM (perform host config) s w).1.2 =
      (dealings.flatMap commands).foldl (after config) s := by
  induction dealings generalizing s w with
  | nil => rfl
  | cons dealing rest ih =>
      rw [List.flatMap_cons, List.foldl_append, ← perform_after host config dealing s w, ← ih]
      rfl

end Dealing

/-- After any dealings with a new session its target is that of the last compilation, and it holds a
flattened text if and only if that compilation can be flattened and a command to do so came after
it. -/
theorem state_follows_commands {σ : Type} (host : Host (StateM σ)) (config : Config)
    (dealings : List Dealing) (w : σ) :
    let commands := dealings.flatMap Dealing.commands
    let s := (dealings.forM (Dealing.perform host config) {} w).1.2
    ((∀ event, .compiled event ∉ commands) → s.target? = none ∧ s.flattened = none) ∧
    ∀ c since, Latest commands c since → s.target? = some c.target ∧
      ∀ f, s.flattened = some f ↔
        .flatten ∈ since ∧ flattenLatest (some c) config.policy = .ok f := by
  intro commands s
  have remembers : Remembers config commands s := by
    have replayed : s = commands.foldl (after config) {} :=
      Dealing.forM_perform_after host config dealings {} w
    rw [replayed]
    exact (Remembers.start config).foldl commands
  constructor
  · intro none
    rw [remembers.without none]
    exact ⟨rfl, rfl⟩
  · intro c since latest
    obtain ⟨compilation, flattened⟩ := remembers.of_latest latest
    exact ⟨by simp only [target?, compilation, Option.map_some], flattened⟩

/-- A host that fails every other call. Its state says whether the next one is among them. -/
def alternating : Host (StateM Bool) := fun call failing =>
  (if failing then .error (.unavailable call.kind) else .ok (), !failing)

def chainedText : String :=
  "// File: B\n\ncontract B;\n\n\n// File: A\n\n\ncontract A is B;\n\n\n"

theorem flatten_chained : flattenLatest (some Compilation.chained) {} =
    .ok ⟨⟨"A"⟩, ⟨[⟨"B"⟩, ⟨"A"⟩], [], []⟩, chainedText⟩ := by
  have discovered : discover Compilation.chained.units {} Compilation.chained.target = _ :=
    Compilation.discover_chained
  simp only [flattenLatest, Compilation.flatten, Compilation.order, discovered]
  decide

/-- A client that has two compilations flattened, the second by direct calls. -/
def twoCompilations : List Dealing :=
  [.run [.compiled (.ofCompilation Compilation.tangled), .flatten], .save,
    .compiled (.ofCompilation Compilation.chained), .flatten, .run [.save]]

theorem alternating_remembers_chained :
    (∀ event, .compiled event ∉ [Dealing.flatten, .save].flatMap Dealing.commands) ∧
    ([Dealing.flatten, .save].forM (Dealing.perform alternating {}) {} true).1.2.flattened = none ∧
    Latest (twoCompilations.flatMap Dealing.commands) Compilation.chained [.flatten, .save] ∧
    (twoCompilations.forM (Dealing.perform alternating {}) {} true).1.2.target? = some ⟨"A"⟩ ∧
    ∃ f,
      (twoCompilations.forM (Dealing.perform alternating {}) {} true).1.2.flattened = some f := by
  have none : ∀ event, .compiled event ∉ [Dealing.flatten, .save].flatMap Dealing.commands := by
    simp [Dealing.commands]
  have latest :
      Latest (twoCompilations.flatMap Dealing.commands) Compilation.chained [.flatten, .save] :=
    .append_cons [.compiled (.ofCompilation Compilation.tangled), .flatten, .save]
      (.ofCompilation Compilation.chained) (by simp [Dealing.commands])
  obtain ⟨before, -⟩ := state_follows_commands alternating {} [.flatten, .save] true
  obtain ⟨-, after⟩ := state_follows_commands alternating {} twoCompilations true
  obtain ⟨target, flattened⟩ := after _ _ latest
  exact ⟨none, (before none).2, latest, target, _,
    (flattened _).mpr ⟨by simp, flatten_chained⟩⟩

end Session

end ImportFlattening
