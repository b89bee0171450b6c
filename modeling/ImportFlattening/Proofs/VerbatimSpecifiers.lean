import ImportFlattening.Proofs.CanonicalNames
import ImportFlattening.Proofs.FlattenOutcome

/-! # Specifiers that are names already

A specifier that is not relative is a name, and resolving it normalizes that name. A file that is
known by a canonical name is found by it. A file that is known by any other name, say one with two
slashes in a row, is not: what is looked up is the normalized name.
-/

namespace ImportFlattening

/-- The discovery ends with the refusal of the import, or it succeeds and has skipped the import. -/
def LeavesOut (units : NameMap SourceUnit) (policy : Policy) (target : SourceName) (i : Import) :
    Prop :=
  discover units policy target = .error (.unresolved i) ∨
    ∃ d, discover units policy target = .ok d ∧ i ∈ d.skipped

section Discovery

variable {units : NameMap SourceUnit} {policy : Policy} {target : SourceName} {i : Import}

theorem missing_of_refused (refused : discover units policy target = .error (.unresolved i)) :
    MissingImport units target i := by
  let c : Compilation := { target, units }
  by_cases known : c.units.contains c.target
  · rcases c.discover_cases policy known with ⟨j, -, missing, failed⟩ | ⟨-, d, discovered⟩
    · rw [refused] at failed
      cases failed
      exact missing
    · rw [refused] at discovered
      cases discovered
  · have unknown := c.discover_unknown policy known
    rw [refused] at unknown
    cases unknown

theorem LeavesOut.missing (left : LeavesOut units policy target i) :
    MissingImport units target i := by
  rcases left with refused | ⟨d, discovered, skipped⟩
  · exact missing_of_refused refused
  · exact (traversal_of_discover discovered).mem_skipped.mp skipped

theorem dependee_of_mem {name : SourceName} (own : i ∈ importsOf units name) :
    i.dependee = name.resolve i.specifier := by
  obtain ⟨unit, found⟩ := Option.isSome_iff_exists.mp (contains_of_mem own)
  rw [importsOf_found found] at own
  obtain ⟨specifier, -, rfl⟩ := List.mem_map.mp own
  rfl

/-- An import is left out only for want of the file that its specifier resolves to. -/
theorem LeavesOut.not_contains (left : LeavesOut units policy target i) :
    ¬ units.contains (i.importer.resolve i.specifier) := by
  obtain ⟨-, own, missing⟩ := left.missing
  rwa [dependee_of_mem own] at missing

end Discovery

namespace SourceName

theorem resolve_eq_self_iff {importer name : SourceName} :
    importer.resolve name.text = name ↔ name.Canonical := by
  constructor
  · intro fixed
    rw [← fixed]
    exact resolve_canonical importer name.text
  · intro canonical
    exact canonical.resolve_eq importer

/-- A file whose name is a specifier that is not relative is looked up by the normalized name. That is
the file itself just if its name is canonical, and an import of a canonical name that is known is
neither refused nor skipped. -/
theorem canonical_specifier_names_its_file {units : NameMap SourceUnit} {name : SourceName}
    (absolute : isRelative name.text = false) (known : units.contains name)
    (importer : SourceName) :
    importer.resolve name.text = ⟨normalize name.text⟩ ∧
    (importer.resolve name.text = name ↔ name.Canonical) ∧
    ∀ policy target i, i.importer = importer → i.specifier = name.text →
      (LeavesOut units policy target i → ¬ units.contains ⟨normalize name.text⟩) ∧
      (name.Canonical → ¬ LeavesOut units policy target i) := by
  have resolved := resolve_not_relative importer absolute
  refine ⟨resolved, resolve_eq_self_iff, ?_⟩
  rintro policy target i rfl specifier
  have unknown : LeavesOut units policy target i → ¬ units.contains ⟨normalize name.text⟩ := by
    intro left
    rw [← resolved, ← specifier]
    exact left.not_contains
  refine ⟨unknown, ?_⟩
  intro canonical left
  apply unknown left
  rwa [canonical.normalize_eq]

/-- `A` imports a file by a name with a scheme and three dots in it. -/
def schemedUnits : NameMap SourceUnit :=
  .ofList [(⟨"A"⟩, .ofImports ["npm:@host/.../B.sol"]), (⟨"npm:@host/.../B.sol"⟩, .ofImports [])]

theorem schemedUnits_found : isRelative "npm:@host/.../B.sol" = false ∧
    schemedUnits.contains ⟨"npm:@host/.../B.sol"⟩ ∧
    resolve ⟨"A"⟩ "npm:@host/.../B.sol" = ⟨"npm:@host/.../B.sol"⟩ ∧
    ¬ LeavesOut schemedUnits ⟨.skip, .drop⟩ ⟨"A"⟩
      ⟨⟨"A"⟩, ⟨"npm:@host/.../B.sol"⟩, "npm:@host/.../B.sol"⟩ := by
  have absolute : isRelative "npm:@host/.../B.sol" = false := by decide
  have known : schemedUnits.contains ⟨"npm:@host/.../B.sol"⟩ := by decide
  have canonical : Canonical ⟨"npm:@host/.../B.sol"⟩ :=
    ⟨["npm:@host", "...", "B.sol"], by decide, .inl (by decide)⟩
  obtain ⟨-, fixed, kept⟩ := canonical_specifier_names_its_file absolute known ⟨"A"⟩
  exact ⟨absolute, known, fixed.mpr canonical, (kept _ _ _ rfl rfl).2 canonical⟩

/-- `A` imports a file by a name that has an empty segment after the scheme. -/
def hostedUnits : NameMap SourceUnit :=
  .ofList [(⟨"A"⟩, .ofImports ["https://host/B.sol"]), (⟨"https://host/B.sol"⟩, .ofImports [])]

/-- The name of a file need not lead to it. -/
theorem hostedUnits_left_out : isRelative "https://host/B.sol" = false ∧
    hostedUnits.contains ⟨"A"⟩ ∧ hostedUnits.contains ⟨"https://host/B.sol"⟩ ∧
    resolve ⟨"A"⟩ "https://host/B.sol" ≠ ⟨"https://host/B.sol"⟩ ∧
    ∀ unresolved, LeavesOut hostedUnits ⟨unresolved, .drop⟩ ⟨"A"⟩
      ⟨⟨"A"⟩, ⟨"https:/host/B.sol"⟩, "https://host/B.sol"⟩ := by
  have found : hostedUnits.get? ⟨"A"⟩ = some (.ofImports ["https://host/B.sol"]) := by decide
  have imports : SourceUnit.importsFrom (.ofImports ["https://host/B.sol"]) ⟨"A"⟩ =
      [⟨⟨"A"⟩, ⟨"https:/host/B.sol"⟩, "https://host/B.sol"⟩] := by decide
  have missing : hostedUnits.get? ⟨"https:/host/B.sol"⟩ = none := by decide
  refine ⟨by decide, by decide, by decide, by decide, ?_⟩
  intro unresolved
  rw [LeavesOut, discover_eq_outcome _ found, imports]
  cases unresolved with
  | fail =>
      rw [Survey.outcome_fail (by decide) missing rfl]
      exact .inl rfl
  | skip =>
      rw [Survey.outcome_skip (by decide) missing rfl, Survey.outcome_nil]
      exact .inr ⟨_, rfl, List.mem_singleton.mpr rfl⟩

end SourceName

end ImportFlattening
