import ImportFlattening.Proofs.FinishingOrder

/-! # Imports that close a cycle

An import closes a cycle when its file has not been finished before its importer, and that is when
the graph leads from the file back to the importer. With these imports dropped the graph has no
cycle, and each file's edges are its other imports, one for each file imported.
-/

namespace ImportFlattening

open Relation

/-- Whether two imports resolve to the same file. -/
def Import.sameDependee (i j : Import) : Bool := i.dependee == j.dependee

/-- The import relation between the files that `target` leads to. -/
def ImportsAmong (units : NameMap SourceUnit) (target importer dependee : SourceName) : Prop :=
  Reached units target importer ∧ Reached units target dependee ∧ Imports units importer dependee

theorem ImportsAmong.of_import {units : NameMap SourceUnit} {target : SourceName} {i : Import}
    (importer : Reached units target i.importer) (own : i ∈ importsOf units i.importer)
    (known : units.contains i.dependee) : ImportsAmong units target i.importer i.dependee := by
  have step : Imports units i.importer i.dependee := ⟨i, own, rfl⟩
  exact ⟨importer, ⟨known, importer.2.tail step⟩, step⟩

theorem map_dependee_eraseDupsBy (imports : List Import) :
    (imports.eraseDupsBy Import.sameDependee).map Import.dependee =
      (imports.map Import.dependee).eraseDups := by
  match imports with
  | [] => rfl
  | i :: rest =>
      rw [List.eraseDupsBy_cons, List.map_cons, List.map_cons, List.eraseDups_cons,
        map_dependee_eraseDupsBy, List.filter_map]
      congr 4
      funext j
      rw [Bool.eq_iff_iff]
      simp [Import.sameDependee]
termination_by imports.length
decreasing_by
  exact Nat.lt_succ_of_le (List.length_filter_le _ _)

namespace Account

variable (units : NameMap SourceUnit) (policy : CyclePolicy) (closes : SourceName → Bool)

theorem cycles_foldl_note (imports : List Import) (a : Account) :
    (imports.foldl (note units policy closes) a).cycles =
      a.cycles ++ imports.filter fun i => units.contains i.dependee && closes i.dependee := by
  induction imports generalizing a with
  | nil => simp
  | cons i rest ih =>
      rw [List.foldl_cons, ih]
      cases known : units.contains i.dependee <;> cases closing : closes i.dependee <;>
        cases policy <;> simp [note, known, closing, apply_ite]

theorem skipped_foldl_note (imports : List Import) (a : Account) :
    (imports.foldl (note units policy closes) a).skipped =
      a.skipped ++ imports.filter fun i => !units.contains i.dependee := by
  induction imports generalizing a with
  | nil => simp
  | cons i rest ih =>
      rw [List.foldl_cons, ih]
      cases known : units.contains i.dependee <;> cases closing : closes i.dependee <;>
        cases policy <;> simp [note, known, closing, apply_ite]

theorem edges_foldl_note (imports : List Import) (a : Account) :
    (imports.foldl (note units .drop closes) a).edges =
      a.edges ++ (imports.filter fun i => units.contains i.dependee && !closes i.dependee &&
        !a.edges.any (·.dependee = i.dependee)).eraseDupsBy Import.sameDependee := by
  induction imports generalizing a with
  | nil => simp
  | cons i rest ih =>
      rw [List.foldl_cons, ih]
      cases known : units.contains i.dependee with
      | false => simp [note, known]
      | true =>
          cases closing : closes i.dependee with
          | true => simp [note, known, closing]
          | false =>
              cases joined : a.edges.any (·.dependee = i.dependee) with
              | true => simp [note, known, closing, joined]
              | false =>
                  simp only [note, known, closing, joined, List.filter_cons, if_true,
                    Bool.false_eq_true, if_false, Bool.not_false, Bool.and_self,
                    List.eraseDupsBy_cons, List.filter_filter, List.append_assoc,
                    List.singleton_append]
                  congr 4
                  funext j
                  grind [Import.sameDependee]

theorem of_mem_edges_foldl_note {e : Import} (imports : List Import) (a : Account)
    (member : e ∈ (imports.foldl (note units policy closes) a).edges) :
    e ∈ a.edges ∨
      e ∈ imports ∧ units.contains e.dependee ∧ (closes e.dependee → policy = .keep) := by
  induction imports generalizing a with
  | nil => exact .inl member
  | cons i rest ih =>
      rcases ih _ member with noted | ⟨later, known, kept⟩
      · -- the step leaves the edges alone or adds `i`, and adds a closing `i` only to keep it
        unfold note at noted
        grind
      · exact .inr ⟨List.mem_cons_of_mem _ later, known, kept⟩

end Account

namespace Traversal

variable {units : NameMap SourceUnit} {policy : CyclePolicy} {target : SourceName} {d : Discovery}
  {order : List SourceName}

/-- The position of a file in the order, with its account settled there. -/
theorem settled_at (traversal : Traversal units policy target d order) {file : SourceName}
    (member : file ∈ order) : ∃ before, before ⊆ order ∧ Survey.Settled units policy d before file ∧
      ∀ other, order.idxOf other < order.idxOf file ↔ other ∈ before := by
  obtain ⟨before, after, cut⟩ := List.append_of_mem member
  refine ⟨before, by simp [cut], traversal.settled _ _ _ cut, fun other => ?_⟩
  exact InOrder.idxOf_lt_iff other traversal.nodup cut

theorem edge_import (traversal : Traversal units policy target d order) {e : Import}
    (member : e ∈ d.graph.edges) : e ∈ importsOf units e.importer ∧ units.contains e.dependee ∧
      (order.idxOf e.dependee < order.idxOf e.importer ∨
        policy = .keep ∧ ReflTransGen d.graph.Edge e.dependee e.importer) := by
  obtain ⟨before, -, settled, position⟩ := traversal.settled_at (traversal.edges e member)
  have noted : e ∈ (d.account e.importer).edges := by simp [Discovery.account, member]
  rw [settled.account] at noted
  rcases Account.of_mem_edges_foldl_note _ _ _ _ _ noted with none | ⟨own, known, kept⟩
  · simp at none
  · refine ⟨own, known, ?_⟩
    rw [position]
    by_cases returned : e.dependee ∈ before
    · exact .inl returned
    · exact .inr ⟨kept (by simpa using returned), settled.closing e own known returned⟩

theorem edge_among (traversal : Traversal units policy target d order) {a b : SourceName}
    (edge : d.graph.Edge a b) : ImportsAmong units target a b := by
  obtain ⟨e, member, rfl, rfl⟩ := edge
  obtain ⟨own, known, -⟩ := traversal.edge_import member
  exact .of_import ((traversal.reached _).mp (traversal.edges e member)) own known

theorem edge_lower (traversal : Traversal units .drop target d order) {a b : SourceName}
    (edge : d.graph.Edge a b) : order.idxOf b < order.idxOf a := by
  obtain ⟨e, member, rfl, rfl⟩ := edge
  obtain ⟨-, -, lower | ⟨keeping, -⟩⟩ := traversal.edge_import member
  · exact lower
  · cases keeping

/-- An import closes a cycle just when the graph leads back from its file. -/
theorem closing_iff (traversal : Traversal units .drop target d order)
    {before : List SourceName} {i : Import}
    (settled : Survey.Settled units .drop d before i.importer)
    (position : ∀ other, order.idxOf other < order.idxOf i.importer ↔ other ∈ before)
    (own : i ∈ importsOf units i.importer) (known : units.contains i.dependee) :
    ReflTransGen d.graph.Edge i.dependee i.importer ↔ i.dependee ∉ before := by
  constructor
  · intro path returned
    have lower := (position i.dependee).mpr returned
    have higher : ∀ file, ReflTransGen d.graph.Edge i.dependee file →
        order.idxOf file ≤ order.idxOf i.dependee := by
      intro file path
      induction path with
      | refl => exact Nat.le_refl _
      | tail _ edge ih => exact Nat.le_of_lt (Nat.lt_of_lt_of_le (traversal.edge_lower edge) ih)
    exact Nat.not_le_of_lt lower (higher _ path)
  · exact settled.closing i own known

open Classical in
theorem account_eq (traversal : Traversal units .drop target d order) {file : SourceName}
    (member : file ∈ order) :
    d.account file =
      { edges := ((importsOf units file).filter fun i => units.contains i.dependee ∧
          ¬ ReflTransGen d.graph.Edge i.dependee file).eraseDupsBy Import.sameDependee
        cycles := (importsOf units file).filter fun i => units.contains i.dependee ∧
          ReflTransGen d.graph.Edge i.dependee file
        skipped := (importsOf units file).filter fun i => !units.contains i.dependee } := by
  obtain ⟨before, -, settled, position⟩ := traversal.settled_at member
  have closing : ∀ i ∈ importsOf units file, units.contains i.dependee →
      (ReflTransGen d.graph.Edge i.dependee file ↔ i.dependee ∉ before) := by
    intro i own known
    have importer := importer_of_mem own
    subst importer
    exact traversal.closing_iff settled position own known
  rw [settled.account, Account.mk.injEq]
  refine ⟨?_, ?_, ?_⟩
  · rw [Account.ofImports, Account.edges_foldl_note, List.nil_append]
    congr 1
    refine List.filter_congr fun i own => ?_
    by_cases known : units.contains i.dependee
    · simp [known, closing i own known]
    · simp [known]
  · rw [Account.ofImports, Account.cycles_foldl_note, List.nil_append]
    refine List.filter_congr fun i own => ?_
    by_cases known : units.contains i.dependee
    · simp [known, closing i own known]
    · simp [known]
  · rw [Account.ofImports, Account.skipped_foldl_note, List.nil_append]

theorem mem_cycles_iff (traversal : Traversal units policy target d order) {i : Import}
    (member : i.importer ∈ order) (own : i ∈ importsOf units i.importer) :
    i ∈ d.cycles ↔ units.contains i.dependee ∧
      ¬ order.idxOf i.dependee < order.idxOf i.importer := by
  obtain ⟨before, -, settled, position⟩ := traversal.settled_at member
  have noted : i ∈ d.cycles ↔ i ∈ (d.account i.importer).cycles := by simp [Discovery.account]
  rw [noted, settled.account, Account.ofImports, Account.cycles_foldl_note, position]
  simp [own]

theorem cycle_import (traversal : Traversal units policy target d order) {i : Import}
    (member : i ∈ d.cycles) : i ∈ importsOf units i.importer ∧ units.contains i.dependee ∧
      ReflTransGen d.graph.Edge i.dependee i.importer := by
  obtain ⟨before, -, settled, -⟩ := traversal.settled_at (traversal.cycles i member)
  have noted : i ∈ (d.account i.importer).cycles := by simp [Discovery.account, member]
  rw [settled.account, Account.ofImports, Account.cycles_foldl_note] at noted
  simp only [List.nil_append, List.mem_filter, Bool.and_eq_true, decide_eq_true_eq] at noted
  obtain ⟨own, known, missing⟩ := noted
  exact ⟨own, known, settled.closing i own known missing⟩

/-- Nothing is recorded as closing a cycle just when there is none to close. -/
theorem cycles_eq_nil_iff (traversal : Traversal units policy target d order) :
    d.cycles = [] ↔ ∀ file, ¬ TransGen (ImportsAmong units target) file file := by
  constructor
  · intro none
    apply acyclic_of_rank (order.idxOf ·)
    rintro a b ⟨importer, dependee, i, own, rfl⟩
    obtain rfl := importer_of_mem own
    by_contra higher
    have recorded : i ∈ d.cycles :=
      (traversal.mem_cycles_iff ((traversal.reached _).mpr importer) own).mpr ⟨dependee.1, higher⟩
    simp [none] at recorded
  · intro acyclic
    rw [List.eq_nil_iff_forall_not_mem]
    intro i member
    obtain ⟨own, known, path⟩ := traversal.cycle_import member
    have step : ImportsAmong units target i.importer i.dependee :=
      .of_import ((traversal.reached _).mp (traversal.cycles i member)) own known
    have back : ReflTransGen (ImportsAmong units target) i.dependee i.importer :=
      ReflTransGen.mono (fun _ _ edge => traversal.edge_among edge) _ _ path
    exact acyclic i.importer (.head' step back)

end Traversal

open Classical in
/-- With the imports dropped that close a cycle, the graph is acyclic and every import of every
file is accounted for. -/
theorem drop_accounts_for_every_import {units : NameMap SourceUnit}
    {unresolved : UnresolvedPolicy} {target : SourceName} {d : Discovery}
    (discovered : discover units ⟨unresolved, .drop⟩ target = .ok d) :
    (∀ file, file ∈ d.graph.names ↔ Reached units target file) ∧
    (∀ file, ¬ TransGen d.graph.Edge file file) ∧
    (∀ file ∈ d.graph.names,
      let kept := (importsOf units file).filter fun i =>
        units.contains i.dependee ∧ ¬ ReflTransGen d.graph.Edge i.dependee file
      d.graph.edges.filter (·.importer = file) = kept.eraseDupsBy Import.sameDependee ∧
      d.graph.dependenciesOf file = (kept.map Import.dependee).eraseDups ∧
      d.cycles.filter (·.importer = file) = (importsOf units file).filter (fun i =>
        units.contains i.dependee ∧ ReflTransGen d.graph.Edge i.dependee file) ∧
      d.skipped.filter (·.importer = file) =
        (importsOf units file).filter (fun i => !units.contains i.dependee)) ∧
    (∀ i, i ∈ d.graph.edges ∨ i ∈ d.cycles ∨ i ∈ d.skipped → i.importer ∈ d.graph.names) ∧
    (d.cycles = [] ↔ ∀ file, ¬ TransGen (ImportsAmong units target) file file) := by
  have traversal := traversal_of_discover discovered
  refine ⟨?_, ?_, ?_, ?_, traversal.cycles_eq_nil_iff⟩
  · intro file
    rw [traversal.names.mem_iff, traversal.reached]
  · exact acyclic_of_rank _ fun a b edge => traversal.edge_lower edge
  · intro file member kept
    have account := traversal.account_eq (traversal.names.mem_iff.mp member)
    have edges : d.graph.edges.filter (·.importer = file) =
        kept.eraseDupsBy Import.sameDependee := congrArg Account.edges account
    refine ⟨edges, ?_, congrArg Account.cycles account, congrArg Account.skipped account⟩
    rw [ImportGraph.dependenciesOf, edges, map_dependee_eraseDupsBy]
  · intro i recorded
    rw [traversal.names.mem_iff]
    rcases recorded with edge | cycle | skipped
    · exact traversal.edges i edge
    · exact traversal.cycles i cycle
    · exact traversal.skipped i skipped

/-- Four files of which `B` and `D` import each other, `C` imports `A`, and `A` imports a file
that is missing. -/
def tangledUnits : NameMap SourceUnit :=
  .ofList [(⟨"A"⟩, .ofImports ["./B", "./C", "B", "./Gone"]), (⟨"B"⟩, .ofImports ["./D"]),
    (⟨"C"⟩, .ofImports ["./D", "./A"]), (⟨"D"⟩, .ofImports ["./B"])]

theorem discover_tangledUnits : discover tangledUnits ⟨.skip, .drop⟩ ⟨"A"⟩ = .ok
    { graph :=
        { names := [⟨"A"⟩, ⟨"B"⟩, ⟨"D"⟩, ⟨"C"⟩]
          edges := [⟨⟨"A"⟩, ⟨"B"⟩, "./B"⟩, ⟨⟨"B"⟩, ⟨"D"⟩, "./D"⟩, ⟨⟨"A"⟩, ⟨"C"⟩, "./C"⟩,
            ⟨⟨"C"⟩, ⟨"D"⟩, "./D"⟩] }
      cycles := [⟨⟨"D"⟩, ⟨"B"⟩, "./B"⟩, ⟨⟨"C"⟩, ⟨"A"⟩, "./A"⟩]
      skipped := [⟨⟨"A"⟩, ⟨"Gone"⟩, "./Gone"⟩] } :=
  discover_of_runWithin rfl 13 (by decide)

theorem tangledUnits_accounted_for : ∃ d, discover tangledUnits ⟨.skip, .drop⟩ ⟨"A"⟩ = .ok d ∧
    (∀ file, ¬ TransGen d.graph.Edge file file) ∧
    (⟨"D"⟩ ∈ d.graph.names ∧ ReflTransGen d.graph.Edge ⟨"B"⟩ ⟨"D"⟩) ∧
    (⟨"A"⟩ ∈ d.graph.names ∧ d.skipped.filter (·.importer = ⟨"A"⟩) =
      (importsOf tangledUnits ⟨"A"⟩).filter (fun i => !tangledUnits.contains i.dependee)) ∧
    ∃ file, TransGen (ImportsAmong tangledUnits ⟨"A"⟩) file file := by
  obtain ⟨-, acyclic, accounts, -, cycles⟩ := drop_accounts_for_every_import discover_tangledUnits
  refine ⟨_, discover_tangledUnits, acyclic, ⟨by simp, ?_⟩, ⟨by simp, ?_⟩, ?_⟩
  · obtain ⟨-, -, closing, -⟩ := accounts ⟨"D"⟩ (by simp)
    have same : ∀ i, i ∈ _ ↔ i ∈ _ := fun i => Iff.of_eq (congrArg (i ∈ ·) closing)
    have recorded := (same ⟨⟨"D"⟩, ⟨"B"⟩, "./B"⟩).mp (by simp)
    simp only [List.mem_filter, decide_eq_true_eq] at recorded
    exact recorded.2.2
  · exact (accounts ⟨"A"⟩ (by simp)).2.2.2
  · by_contra none
    exact List.cons_ne_nil _ _ (cycles.mpr (not_exists.mp none))

end ImportFlattening
