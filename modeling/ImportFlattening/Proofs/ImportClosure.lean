import ImportFlattening.Proofs.FlattenOutcome

/-! # Files that have no influence

Flattening looks up syntax trees and texts by name, and every name that it looks up is one that the
target's imports lead to. So two compilations that agree on these names are flattened alike, to the
same text or the same error, whatever else they hold.
-/

namespace ImportFlattening

open Relation

/-- The least set of names that holds `target` and, with every file that has a syntax tree, the
names that its imports resolve to. -/
inductive ImportClosure (units : NameMap SourceUnit) (target : SourceName) : SourceName → Prop where
  | target : ImportClosure units target target
  | dependee {name : SourceName} {unit : SourceUnit} {specifier : String}
      (member : ImportClosure units target name) (found : units.get? name = some unit)
      (written : specifier ∈ unit.imports) : ImportClosure units target (name.resolve specifier)

/-- Of the names in a set, both compilations have a syntax tree or neither has, their trees have the
same imports, and where there are trees the texts are the same or both missing. -/
structure Compilation.AgreesOn (c₁ c₂ : Compilation) (members : SourceName → Prop) : Prop where
  present : ∀ name, members name → (c₁.units.contains name ↔ c₂.units.contains name)
  imports : ∀ name, members name → ∀ unit₁ unit₂, c₁.units.get? name = some unit₁ →
    c₂.units.get? name = some unit₂ → unit₁.imports = unit₂.imports
  texts : ∀ name, members name → c₁.units.contains name → c₁.texts.get? name = c₂.texts.get? name

namespace ImportClosure

variable {units : NameMap SourceUnit} {target name : SourceName} {unit : SourceUnit} {i : Import}

theorem of_import (member : ImportClosure units target name) (found : units.get? name = some unit)
    (own : i ∈ unit.importsFrom name) : ImportClosure units target i.dependee := by
  obtain ⟨specifier, written, rfl⟩ := List.mem_map.mp own
  exact .dependee member found written

theorem of_reached (reached : Reached units target name) : ImportClosure units target name := by
  obtain ⟨-, path⟩ := reached
  induction path with
  | refl => exact .target
  | tail _ step ih =>
      obtain ⟨i, own, rfl⟩ := step
      obtain ⟨unit, found⟩ := Option.isSome_iff_exists.mp (contains_of_mem own)
      rw [importsOf_found found] at own
      exact ih.of_import found own

theorem subset_of_closed {files : List SourceName} (start : target ∈ files)
    (closed : ∀ file ∈ files, ∀ i ∈ importsOf units file, i.dependee ∈ files)
    (member : ImportClosure units target name) : name ∈ files := by
  induction member with
  | target => exact start
  | @dependee name unit specifier _ found written ih =>
      have own : ⟨name, name.resolve specifier, specifier⟩ ∈ importsOf units name := by
        rw [importsOf_found found]
        exact List.mem_map_of_mem written
      exact closed name ih _ own

end ImportClosure

/-- Two collections of syntax trees that have the same imports for the names in a set. -/
def SameImports (units₁ units₂ : NameMap SourceUnit) (members : SourceName → Prop) : Prop :=
  ∀ name, members name →
    (units₁.get? name).map SourceUnit.imports = (units₂.get? name).map SourceUnit.imports

namespace SameImports

variable {units₁ units₂ : NameMap SourceUnit} {members : SourceName → Prop} {name : SourceName}

theorem missing (same : SameImports units₁ units₂ members) (member : members name)
    (missing : units₁.get? name = none) : units₂.get? name = none := by
  have none := same name member
  rw [missing, Option.map_none] at none
  exact Option.map_eq_none_iff.mp none.symm

theorem found (same : SameImports units₁ units₂ members) (member : members name)
    {unit₁ : SourceUnit} (found : units₁.get? name = some unit₁) :
    ∃ unit₂, units₂.get? name = some unit₂ ∧ unit₂.importsFrom name = unit₁.importsFrom name := by
  have mapped := same name member
  rw [found, Option.map_some, eq_comm, Option.map_eq_some_iff] at mapped
  obtain ⟨unit₂, found, imports⟩ := mapped
  exact ⟨unit₂, found, by simp only [SourceUnit.importsFrom, imports]⟩

/-- A visit that starts inside a set closed under imports never looks outside. -/
theorem outcome_eq (same : SameImports units₁ units₂ members)
    (closed : ∀ name unit, members name → units₁.get? name = some unit →
      ∀ i ∈ unit.importsFrom name, members i.dependee)
    (policy : Policy) (calls : List SourceName) (pending : List Import) (s : Survey)
    (inside : ∀ i ∈ pending, members i.dependee) :
    Survey.outcome units₁ policy calls pending s =
      Survey.outcome units₂ policy calls pending s := by
  induction calls, pending, s using Survey.visit.induct units₁ policy with
  | case1 calls s => rw [Survey.outcome_nil, Survey.outcome_nil]
  | case2 calls i rest s known active ih =>
      rw [Survey.outcome_close known active, Survey.outcome_close known active]
      exact ih (List.forall_mem_cons.mp inside).2
  | case3 calls i rest s known returned ih =>
      rw [Survey.outcome_settle known returned, Survey.outcome_settle known returned]
      exact ih (List.forall_mem_cons.mp inside).2
  | case4 calls i rest s unvisited missing strict =>
      obtain ⟨first, -⟩ := List.forall_mem_cons.mp inside
      rw [Survey.outcome_fail unvisited missing strict,
        Survey.outcome_fail unvisited (same.missing first missing) strict]
  | case5 calls i rest s unvisited missing lenient ih =>
      obtain ⟨first, others⟩ := List.forall_mem_cons.mp inside
      rw [Survey.outcome_skip unvisited missing lenient,
        Survey.outcome_skip unvisited (same.missing first missing) lenient]
      exact ih others
  | case6 calls i rest s unvisited unit found ihCall ihRest =>
      obtain ⟨first, others⟩ := List.forall_mem_cons.mp inside
      obtain ⟨other, foundOther, imports⟩ := same.found first found
      rw [Survey.outcome_enter unvisited found, Survey.outcome_enter unvisited foundOther, imports,
        ← ihCall (closed _ _ first found)]
      cases called : Survey.outcome units₁ policy (i.dependee :: calls)
          (unit.importsFrom i.dependee) (s.enter i) with
      | error e => rfl
      | ok middle =>
          obtain ⟨later, -⟩ := Survey.visit_of_outcome called
          exact ihRest ⟨middle, later⟩ others

theorem discover_eq {target : SourceName}
    (same : SameImports units₁ units₂ (ImportClosure units₁ target)) (policy : Policy) :
    discover units₁ policy target = discover units₂ policy target := by
  cases found : units₁.get? target with
  | none => simp only [discover, found, same.missing .target found]
  | some unit =>
      obtain ⟨other, foundOther, imports⟩ := same.found .target found
      rw [discover_eq_outcome policy found, discover_eq_outcome policy foundOther, imports]
      congr 1
      exact same.outcome_eq (fun _ _ member found _ own => member.of_import found own) policy _ _ _
        (fun _ own => ImportClosure.target.of_import found own)

end SameImports

theorem FlatText.concatenate_congr {texts₁ texts₂ : NameMap String} {order : List SourceName}
    (same : ∀ file ∈ order, texts₁.get? file = texts₂.get? file) :
    concatenate texts₁ order = concatenate texts₂ order := by
  induction order with
  | nil => rfl
  | cons file rest ih =>
      obtain ⟨first, others⟩ := List.forall_mem_cons.mp same
      rw [concatenate_cons, concatenate_cons, first, ih others]

namespace Compilation

variable {c₁ c₂ : Compilation} {members : SourceName → Prop}

theorem AgreesOn.sameImports (agree : c₁.AgreesOn c₂ members) :
    SameImports c₁.units c₂.units members := by
  intro name member
  have present := agree.present name member
  cases found₁ : c₁.units.get? name with
  | none =>
      cases found₂ : c₂.units.get? name with
      | none => rfl
      | some unit₂ => simp [NameMap.contains, found₁, found₂] at present
  | some unit₁ =>
      cases found₂ : c₂.units.get? name with
      | none => simp [NameMap.contains, found₁, found₂] at present
      | some unit₂ => exact congrArg some (agree.imports name member _ _ found₁ found₂)

/-- Compilations that agree on the names that the target's imports lead to are flattened alike. -/
theorem flatten_ignores_other_files (target : c₁.target = c₂.target)
    (agree : c₁.AgreesOn c₂ (ImportClosure c₁.units c₁.target)) (policy : Policy) :
    flattenLatest (some c₁) policy = flattenLatest (some c₂) policy := by
  have orders : c₁.order policy = c₂.order policy := by
    simp only [order, ← target, agree.sameImports.discover_eq policy]
  simp only [flattenLatest, flatten, ← orders, ← target]
  cases ordered : c₁.order policy with
  | error e => rfl
  | ok o =>
      have texts : ∀ file ∈ o.names, c₁.texts.get? file = c₂.texts.get? file := by
        intro file member
        have reached := (mem_order_names ordered file).mp member
        exact agree.texts file (.of_reached reached) reached.1
      simp only [bind, Except.bind, FlatText.concatenate_congr texts]

/-- `chained` with more in it: a declaration and an import without a file among the nodes of `A`, a
file that nothing imports, and a language version. -/
def cluttered : Compilation where
  target := ⟨"A"⟩
  texts := chained.texts.insert ⟨"Z"⟩ "contract Z;\n"
  units := .ofList [
    (⟨"A"⟩, ⟨[.declaring "ContractDefinition", .importing "./B", ⟨SyntaxNode.importKind, none⟩]⟩),
    (⟨"B"⟩, .ofImports []), (⟨"Z"⟩, .ofImports ["./Gone"])]
  languageVersion := some "0.8.0"

theorem cluttered_flattens_as_chained : chained ≠ cluttered ∧ chained.target = cluttered.target ∧
    chained.AgreesOn cluttered (ImportClosure chained.units chained.target) ∧
    ∀ policy, flattenLatest (some chained) policy = flattenLatest (some cluttered) policy := by
  have inside : ∀ name, ImportClosure chained.units chained.target name →
      name ∈ [(⟨"A"⟩ : SourceName), ⟨"B"⟩] :=
    fun name member => member.subset_of_closed (by decide) (by decide)
  have present : ∀ name ∈ [(⟨"A"⟩ : SourceName), ⟨"B"⟩],
      (chained.units.contains name ↔ cluttered.units.contains name) := by decide
  have imports : ∀ name ∈ [(⟨"A"⟩ : SourceName), ⟨"B"⟩],
      (chained.units.get? name).map SourceUnit.imports =
        (cluttered.units.get? name).map SourceUnit.imports := by decide
  have texts : ∀ name ∈ [(⟨"A"⟩ : SourceName), ⟨"B"⟩],
      chained.texts.get? name = cluttered.texts.get? name := by decide
  have agree : chained.AgreesOn cluttered (ImportClosure chained.units chained.target) := by
    refine ⟨fun name member => present name (inside name member), ?_,
      fun name member _ => texts name (inside name member)⟩
    intro name member unit₁ unit₂ found₁ found₂
    have same := imports name (inside name member)
    rw [found₁, found₂] at same
    exact Option.some.inj same
  exact ⟨by decide, rfl, agree, flatten_ignores_other_files rfl agree⟩

end Compilation

end ImportFlattening
