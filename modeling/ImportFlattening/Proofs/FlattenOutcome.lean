import ImportFlattening.Proofs.ClosingEdges
import ImportFlattening.Proofs.SkippedImports

/-! # When a compilation can be flattened

Each step of flattening has its own cause of failure: the target or an imported file is missing, the
graph has a cycle, or a text is missing. The steps meet these causes in the course of their work.
Here each cause is a condition on the imports that the target leads to, and `Fate` lists the causes
in the order in which they count.
-/

namespace ImportFlattening

open Relation

/-- An import of a file without a syntax tree, by a file that `target` leads to. -/
def MissingImport (units : NameMap SourceUnit) (target : SourceName) (i : Import) : Prop :=
  Reached units target i.importer ∧ i ∈ importsOf units i.importer ∧ ¬ units.contains i.dependee

namespace Traversal

variable {units : NameMap SourceUnit} {policy : CyclePolicy} {target : SourceName} {d : Discovery}
  {order : List SourceName}

theorem mem_skipped (traversal : Traversal units policy target d order) {i : Import} :
    i ∈ d.skipped ↔ MissingImport units target i := by
  constructor
  · intro skipped
    have member := traversal.skipped i skipped
    obtain ⟨before, -, settled, -⟩ := traversal.settled_at member
    have noted : i ∈ (d.account i.importer).skipped := by simp [Discovery.account, skipped]
    rw [settled.account, Account.ofImports, Account.skipped_foldl_note, List.nil_append,
      List.mem_filter] at noted
    exact ⟨(traversal.reached _).mp member, noted.1, by simpa using noted.2⟩
  · rintro ⟨reached, own, missing⟩
    exact (traversal.mem_skipped_iff ((traversal.reached _).mpr reached) own).mpr missing

theorem forward_of_acyclic (traversal : Traversal units policy target d order)
    (acyclic : policy = .keep → ∀ file, ¬ TransGen (ImportsAmong units target) file file)
    (a b : SourceName) (edge : d.graph.Edge a b) : order.idxOf b < order.idxOf a := by
  have step := traversal.edge_among edge
  obtain ⟨e, member, rfl, rfl⟩ := edge
  obtain ⟨-, -, lower | ⟨keeping, path⟩⟩ := traversal.edge_import member
  · exact lower
  · -- an edge to a file not finished before is kept on request only, and lies on a cycle
    have back : ReflTransGen (ImportsAmong units target) e.dependee e.importer :=
      ReflTransGen.mono (fun _ _ edge => traversal.edge_among edge) _ _ path
    exact absurd (.head' step back) (acyclic keeping e.importer)

end Traversal

namespace FlatText

variable {texts : NameMap String} {order : List SourceName} {name : SourceName}

theorem concatenate_cons (texts : NameMap String) (file : SourceName) (rest : List SourceName) :
    concatenate texts (file :: rest) =
      match texts.get? file with
      | none => .error (.missingText file)
      | some text => (concatenate texts rest).map (chapter file text ++ ·) := by
  unfold concatenate
  rw [List.mapM_cons]
  cases texts.get? file with
  | none => rfl
  | some text =>
      simp only [bind, Except.bind, pure, Except.pure]
      generalize List.mapM (m := Except Error) _ rest = chapters
      cases chapters with
      | error e => rfl
      | ok chapters => simp [Except.map]

theorem concatenate_missing (first : order.find? (fun file => !texts.contains file) = some name) :
    concatenate texts order = .error (.missingText name) := by
  induction order with
  | nil => simp at first
  | cons file rest ih =>
      rw [concatenate_cons]
      cases text : texts.get? file with
      | none =>
          rw [List.find?_cons_of_pos (by simp [NameMap.contains, text])] at first
          cases first
          rfl
      | some text =>
          rw [List.find?_cons_of_neg (by simp [NameMap.contains, text])] at first
          simp only [ih first]
          rfl

theorem concatenate_complete (all : ∀ file ∈ order, texts.contains file) :
    ∃ text, concatenate texts order = .ok text := by
  induction order with
  | nil => exact ⟨"", rfl⟩
  | cons file rest ih =>
      obtain ⟨known, others⟩ := List.forall_mem_cons.mp all
      obtain ⟨text, found⟩ := Option.isSome_iff_exists.mp known
      obtain ⟨later, joined⟩ := ih others
      rw [concatenate_cons, found, joined]
      exact ⟨_, rfl⟩

end FlatText

namespace Compilation

/-- Some file that is needed is missing, and the policy does not skip it. -/
def Refused (c : Compilation) (policy : Policy) : Prop :=
  policy.unresolved = .fail ∧ ∃ i, MissingImport c.units c.target i

/-- The files that the target leads to import each other in a cycle, and the policy keeps it. -/
def Cyclic (c : Compilation) (policy : Policy) : Prop :=
  policy.cycles = .keep ∧ ∃ file, TransGen (ImportsAmong c.units c.target) file file

/-- Some file that the target leads to has no text. -/
def Textless (c : Compilation) : Prop :=
  ∃ file, Reached c.units c.target file ∧ ¬ c.texts.contains file

/-- What becomes of a compilation. Of several causes of failure the one listed first counts. -/
inductive Fate (c : Compilation) (policy : Policy) : Except Error Flattened → Prop where
  | unknownTarget (unknown : ¬ c.units.contains c.target) :
      Fate c policy (.error (.unknownTarget c.target))
  | unresolved {i : Import} (known : c.units.contains c.target)
      (strict : policy.unresolved = .fail) (missing : MissingImport c.units c.target i) :
      Fate c policy (.error (.unresolved i))
  | importCycle {names : List SourceName} (known : c.units.contains c.target)
      (resolved : ¬ c.Refused policy) (cyclic : c.Cyclic policy) :
      Fate c policy (.error (.importCycle names))
  | missingText {name : SourceName} {o : FlatOrder} (known : c.units.contains c.target)
      (resolved : ¬ c.Refused policy) (acyclic : ¬ c.Cyclic policy)
      (ordered : c.order policy = .ok o)
      (first : o.names.find? (fun file => !c.texts.contains file) = some name) :
      Fate c policy (.error (.missingText name))
  | flattened {f : Flattened} (known : c.units.contains c.target)
      (resolved : ¬ c.Refused policy) (acyclic : ¬ c.Cyclic policy) (complete : ¬ c.Textless) :
      Fate c policy (.ok f)

variable {c : Compilation} {policy : Policy} {d : Discovery} {o : FlatOrder}

theorem discover_unknown (policy : Policy) (unknown : ¬ c.units.contains c.target) :
    discover c.units policy c.target = .error (.unknownTarget c.target) := by
  have missing : c.units.get? c.target = none := by simpa [NameMap.contains] using unknown
  simp only [discover, missing]

theorem discover_cases (policy : Policy) (known : c.units.contains c.target) :
    (∃ i, policy.unresolved = .fail ∧ MissingImport c.units c.target i ∧
      discover c.units policy c.target = .error (.unresolved i)) ∨
    (¬ c.Refused policy ∧ ∃ d, discover c.units policy c.target = .ok d) := by
  obtain ⟨unresolved, cycles⟩ := policy
  obtain ⟨d, skipping, refusing⟩ := discover_skipping known cycles
  have mem_skipped := fun i => (traversal_of_discover skipping).mem_skipped (i := i)
  cases unresolved with
  | skip => exact .inr ⟨by simp [Refused], d, skipping⟩
  | fail =>
      cases skipped : d.skipped with
      | nil =>
          rw [skipped] at refusing
          refine .inr ⟨?_, d, refusing⟩
          rintro ⟨-, i, missing⟩
          have member := (mem_skipped i).mpr missing
          simp [skipped] at member
      | cons i later =>
          rw [skipped] at refusing
          exact .inl ⟨i, rfl, (mem_skipped i).mp (by simp [skipped]), refusing⟩

theorem order_cyclic (discovered : discover c.units policy c.target = .ok d)
    (cyclic : c.Cyclic policy) : ∃ names, c.order policy = .error (.importCycle names) := by
  obtain ⟨unresolved, cycles⟩ := policy
  obtain ⟨keeping, file, cycle⟩ := cyclic
  obtain rfl : cycles = .keep := keeping
  have recorded : d.cycles ≠ [] := by
    intro none
    exact (traversal_of_discover discovered).cycles_eq_nil_iff.mp none file cycle
  exact ⟨_, order_keep_cyclic discovered recorded⟩

theorem order_acyclic (discovered : discover c.units policy c.target = .ok d)
    (acyclic : ¬ c.Cyclic policy) : ∃ o, c.order policy = .ok o := by
  have traversal := traversal_of_discover discovered
  have linear := traversal.linearize (traversal.forward_of_acyclic fun keeping file cycle =>
    acyclic ⟨keeping, file, cycle⟩)
  simp [order, discovered, linear, bind, Except.bind, pure, Except.pure]

theorem flatten_missingText (ordered : c.order policy = .ok o) {name : SourceName}
    (first : o.names.find? (fun file => !c.texts.contains file) = some name) :
    c.flatten policy = .error (.missingText name) := by
  simp [flatten, ordered, FlatText.concatenate_missing first, bind, Except.bind]

theorem flatten_complete (ordered : c.order policy = .ok o) (complete : ¬ c.Textless) :
    ∃ f, c.flatten policy = .ok f := by
  have all : ∀ file ∈ o.names, c.texts.contains file := by
    intro file member
    by_contra textless
    exact complete ⟨file, (mem_order_names ordered file).mp member, textless⟩
  obtain ⟨text, joined⟩ := FlatText.concatenate_complete all
  simp [flatten, ordered, joined, bind, Except.bind, pure, Except.pure]

theorem textless_iff (ordered : c.order policy = .ok o) :
    c.Textless ↔ ∃ name, o.names.find? (fun file => !c.texts.contains file) = some name := by
  simp only [Textless, ← mem_order_names ordered, ← Option.isSome_iff_exists, List.find?_isSome]
  simp

theorem flatten_error_of_discover {e : Error}
    (failed : discover c.units policy c.target = .error e) : c.flatten policy = .error e := by
  simp [flatten, order, failed, bind, Except.bind]

theorem flatten_fate (c : Compilation) (policy : Policy) : c.Fate policy (c.flatten policy) := by
  by_cases known : c.units.contains c.target
  · rcases discover_cases policy known with ⟨i, strict, missing, failed⟩ | ⟨resolved, d, discovered⟩
    · rw [flatten_error_of_discover failed]
      exact .unresolved known strict missing
    · by_cases cyclic : c.Cyclic policy
      · obtain ⟨names, failed⟩ := order_cyclic discovered cyclic
        rw [flatten_error_of_order failed]
        exact .importCycle known resolved cyclic
      · obtain ⟨o, ordered⟩ := order_acyclic discovered cyclic
        by_cases textless : c.Textless
        · obtain ⟨name, first⟩ := (textless_iff ordered).mp textless
          rw [flatten_missingText ordered first]
          exact .missingText known resolved cyclic ordered first
        · obtain ⟨f, flat⟩ := flatten_complete ordered textless
          rw [flat]
          exact .flattened known resolved cyclic textless
  · rw [flatten_error_of_discover (discover_unknown policy known)]
    exact .unknownTarget known

theorem flatten_missingText_iff {name : SourceName} :
    c.flatten policy = .error (.missingText name) ↔ ∃ o, c.order policy = .ok o ∧
      o.names.find? (fun file => !c.texts.contains file) = some name := by
  constructor
  · intro failed
    have fate := c.flatten_fate policy
    rw [failed] at fate
    cases fate with
    | missingText _ _ _ ordered first => exact ⟨_, ordered, first⟩
  · rintro ⟨o, ordered, first⟩
    exact flatten_missingText ordered first

end Compilation

/-- Flattening succeeds or ends with the first cause that applies: there is no compilation, its
target is missing, a file that is needed is missing and refused, there is a cycle and it is kept, a
text is missing. -/
theorem flattenLatest_ends_by_first_cause (latest : Option Compilation) (policy : Policy) :
    (flattenLatest latest policy = .error .noCompilation ↔ latest = none) ∧
    (∀ name, flattenLatest latest policy = .error (.unknownTarget name) ↔
      ∃ c, latest = some c ∧ ¬ c.units.contains c.target ∧ name = c.target) ∧
    ((∃ i, flattenLatest latest policy = .error (.unresolved i)) ↔
      ∃ c, latest = some c ∧ c.units.contains c.target ∧ c.Refused policy) ∧
    ((∃ names, flattenLatest latest policy = .error (.importCycle names)) ↔
      ∃ c, latest = some c ∧ c.units.contains c.target ∧ ¬ c.Refused policy ∧ c.Cyclic policy) ∧
    ((∃ name, flattenLatest latest policy = .error (.missingText name)) ↔
      ∃ c, latest = some c ∧ c.units.contains c.target ∧ ¬ c.Refused policy ∧
        ¬ c.Cyclic policy ∧ c.Textless) ∧
    (∀ name, flattenLatest latest policy = .error (.missingText name) ↔
      ∃ c, latest = some c ∧ ∃ o, c.order policy = .ok o ∧
        o.names.find? (fun file => !c.texts.contains file) = some name) ∧
    ((∃ f, flattenLatest latest policy = .ok f) ↔
      ∃ c, latest = some c ∧ c.units.contains c.target ∧ ¬ c.Refused policy ∧
        ¬ c.Cyclic policy ∧ ¬ c.Textless) := by
  cases latest with
  | none => simp [flattenLatest]
  | some c =>
      have fate := c.flatten_fate policy
      simp only [flattenLatest, Option.some.injEq, exists_eq_left',
        ← Compilation.flatten_missingText_iff]
      generalize c.flatten policy = result at fate
      cases fate with
      | unknownTarget unknown => simp [unknown, eq_comm]
      | unresolved known strict missing =>
          have refused : c.Refused policy := ⟨strict, _, missing⟩
          simp [known, refused]
      | importCycle known resolved cyclic => simp [known, resolved, cyclic]
      | missingText known resolved acyclic ordered first =>
          have textless : c.Textless := (Compilation.textless_iff ordered).mpr ⟨_, first⟩
          simp [known, resolved, acyclic, textless]
      | flattened known resolved acyclic complete => simp [known, resolved, acyclic, complete]

end ImportFlattening
