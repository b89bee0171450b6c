import ImportFlattening.Proofs.CycleClosing

/-! # Skipped and refused imports

The two policies on missing files walk alike up to the first import of a missing file. There one
of them stops, and the other notes the import and goes on. So the discovery that skips always has a
result, and its list of skipped imports tells how the discovery that refuses would have ended.
-/

namespace ImportFlattening

/-- The result, unless imports were skipped for it: then the first of these is refused. -/
def refuseSkipped {α : Type} (skipped : List Import) (result : α) : Except Error α :=
  match skipped with
  | [] => .ok result
  | i :: _ => .error (.unresolved i)

namespace Survey

/-- A visit that skips has a result. The visit that refuses has the same one, or it ends at the
first of the imports skipped meanwhile. -/
theorem outcome_skipping (units : NameMap SourceUnit) (cycles : CyclePolicy)
    (calls : List SourceName) (pending : List Import) (s : Survey) :
    ∃ t skipped, outcome units ⟨.skip, cycles⟩ calls pending s = .ok t ∧
      t.found.skipped = s.found.skipped ++ skipped ∧
      outcome units ⟨.fail, cycles⟩ calls pending s = refuseSkipped skipped t := by
  induction calls, pending, s using visit.induct units ⟨.skip, cycles⟩ with
  | case1 calls s => exact ⟨s, [], outcome_nil, (List.append_nil _).symm, outcome_nil⟩
  | case2 calls i rest s known active ih =>
      rw [outcome_close known active, outcome_close known active]
      exact ih
  | case3 calls i rest s known returned ih =>
      rw [outcome_settle known returned, outcome_settle known returned]
      exact ih
  | case4 calls i rest s unvisited missing strict => cases strict
  | case5 calls i rest s unvisited missing lenient ih =>
      obtain ⟨t, skipped, done, grown, -⟩ := ih
      rw [outcome_skip unvisited missing rfl, outcome_fail unvisited missing rfl]
      refine ⟨t, i :: skipped, done, ?_, rfl⟩
      rw [grown, List.append_cons]
      rfl
  | case6 calls i rest s unvisited unit found ihCall ihRest =>
      obtain ⟨middle, inside, called, grownInside, refusedInside⟩ := ihCall
      obtain ⟨later, -⟩ := visit_of_outcome called
      obtain ⟨t, skipped, done, grown, refused⟩ := ihRest ⟨middle, later⟩
      rw [outcome_enter unvisited found, outcome_enter unvisited found, called, refusedInside]
      refine ⟨t, inside ++ skipped, done, ?_, ?_⟩
      · rw [grown, grownInside, List.append_assoc]
        rfl
      · -- the inner call comes first, and so does what it skips
        cases inside with
        | nil => exact refused
        | cons => rfl

end Survey

section Target

variable {units : NameMap SourceUnit} {target : SourceName}

theorem discover_skipping (known : units.contains target) (cycles : CyclePolicy) :
    ∃ d, discover units ⟨.skip, cycles⟩ target = .ok d ∧
      discover units ⟨.fail, cycles⟩ target = refuseSkipped d.skipped d := by
  obtain ⟨unit, found⟩ := Option.isSome_iff_exists.mp known
  obtain ⟨t, skipped, done, grown, refused⟩ :=
    Survey.outcome_skipping units cycles [target] (unit.importsFrom target) (.start target)
  have all : t.found.skipped = skipped := grown
  rw [discover_eq_outcome _ found, discover_eq_outcome _ found, done, refused]
  refine ⟨t.found, rfl, ?_⟩
  rw [all]
  cases skipped <;> rfl

/-- A discovery that skips missing files succeeds. If it skipped none, refusing them makes no
difference, and else the first that it skipped is refused. -/
theorem discover_refuses_first_skipped (known : units.contains target) (cycles : CyclePolicy) :
    ∃ d, discover units ⟨.skip, cycles⟩ target = .ok d ∧
      (d.skipped = [] → discover units ⟨.fail, cycles⟩ target = .ok d) ∧
      ∀ i later, d.skipped = i :: later →
        discover units ⟨.fail, cycles⟩ target = .error (.unresolved i) := by
  obtain ⟨d, done, refused⟩ := discover_skipping known cycles
  refine ⟨d, done, ?_, ?_⟩
  · intro none
    rw [refused, none]
    rfl
  · intro i later skipped
    rw [refused, skipped]
    rfl

theorem tangledUnits_refused : tangledUnits.contains ⟨"A"⟩ ∧
    discover tangledUnits ⟨.fail, .drop⟩ ⟨"A"⟩ =
      .error (.unresolved ⟨⟨"A"⟩, ⟨"Gone"⟩, "./Gone"⟩) := by
  have known : tangledUnits.contains ⟨"A"⟩ := by decide
  obtain ⟨d, done, -, refused⟩ := discover_refuses_first_skipped known .drop
  rw [discover_tangledUnits] at done
  cases done
  exact ⟨known, refused _ _ rfl⟩

end Target

end ImportFlattening
