import ImportFlattening.Proofs.PathSegments
import ImportFlattening.Proofs.Renaming
import Mathlib.Data.String.Basic

/-! # Moving a compilation into a directory

Relative imports that stay below the top do not tell where the top is. So a compilation with no
others may be moved into a directory: each import leads to the file that it led to before, in its
new place (`SourceName.resolve_under`), and the order moves along.
-/

namespace ImportFlattening

namespace SourceName

/-- The name in its place below a directory. -/
def under (directory name : SourceName) : SourceName := ⟨directory.text ++ "/" ++ name.text⟩

variable {p name : SourceName} {specifier : String}

theorem under_injective (p : SourceName) : Function.Injective p.under := by
  intro a b same
  have texts : p.text ++ "/" ++ a.text = p.text ++ "/" ++ b.text := congrArg SourceName.text same
  cases a with
  | mk a =>
      cases b with
      | mk b => simpa using texts

theorem under_lt {a b : SourceName} (p : SourceName) (lower : a < b) : p.under a < p.under b := by
  have chars : a.text.toList < b.text.toList := String.lt_iff_toList_lt.mp lower
  apply String.lt_iff_toList_lt.mpr
  simp only [under, String.toList_append]
  exact List.append_left_lt chars

theorem segments_under (p name : SourceName) :
    (p.under name).segments = p.segments ++ name.segments :=
  Text.pieces_append_slash p.text name.text

theorem Canonical.segments_proper (canonical : p.Canonical) (named : p.text ≠ "")
    (unrooted : Text.isRooted p.text = false) : ∀ s ∈ p.segments, IsProper s := by
  obtain ⟨segs, proper, text | text⟩ := canonical
  · have nonempty : segs ≠ [] := by
      rintro rfl
      exact named text
    have segments : p.segments = segs := by
      rw [SourceName.segments, text]
      exact Text.pieces_ofPieces nonempty fun s member => (proper s member).2
    rw [segments]
    exact fun s member => (proper s member).1
  · rw [text] at unrooted
    simp [Text.isRooted] at unrooted

theorem unrooted_under (named : p.text ≠ "") (unrooted : Text.isRooted p.text = false)
    (name : SourceName) : Text.isRooted (p.under name).text = false := by
  rw [under, String.append_assoc, Text.isRooted_append named]
  exact unrooted

/-- In a file that has been moved, a specifier that stays below the top resolves to the new place
of what it resolved to. -/
theorem resolve_under (canonical : p.Canonical) (named : p.text ≠ "")
    (unrootedDirectory : Text.isRooted p.text = false)
    (unrooted : Text.isRooted name.text = false) (relative : isRelative specifier)
    (below : NeverAbove (Text.pieces '/' name.directory ++ Text.pieces '/' specifier))
    (somewhere : name.resolve specifier ≠ ⟨""⟩) :
    (p.under name).resolve specifier = p.under (name.resolve specifier) := by
  have nonempty : p.segments ≠ [] := Text.pieces_ne_nil '/' p.text
  have inner : name.segments ≠ [] := Text.pieces_ne_nil '/' name.text
  have proper := canonical.segments_proper named unrootedDirectory
  have moved := unrooted_under named unrootedDirectory name
  have reached : walk [] (Text.pieces '/' name.directory ++ Text.pieces '/' specifier) ≠ [] := by
    intro none
    rw [resolve_relative unrooted relative, none] at somewhere
    exact somewhere rfl
  have path : walk [] (Text.pieces '/' (p.under name).directory ++ Text.pieces '/' specifier) =
      p.segments ++ walk [] (Text.pieces '/' name.directory ++ Text.pieces '/' specifier) :=
    calc walk [] (Text.pieces '/' (p.under name).directory ++ Text.pieces '/' specifier)
      _ = walk [] (p.segments ++ (name.segments.dropLast ++ Text.pieces '/' specifier)) := by
        rw [walk_directory, segments_under,
          List.dropLast_append_of_ne_nil inner, List.append_assoc]
      _ = walk p.segments (name.segments.dropLast ++ Text.pieces '/' specifier) := by
        rw [walk_append, walk_proper [] proper, List.nil_append]
      _ = walk p.segments (Text.pieces '/' name.directory ++ Text.pieces '/' specifier) := by
        rw [walk_directory]
      _ = _ := below.walk_eq p.segments
  rw [resolve_relative moved relative, path, Text.ofPieces_append nonempty reached,
    resolve_relative unrooted relative]
  simp only [under, segments, Text.ofPieces_pieces]

end SourceName

namespace NameMap

variable {α : Type}

theorem sorted_under (p : SourceName) {entries : List (SourceName × α)}
    (sorted : entries.Pairwise (fun a b => a.1 < b.1)) :
    (entries.map fun e => (p.under e.1, e.2)).Pairwise (fun a b => a.1 < b.1) := by
  rw [List.pairwise_map]
  refine sorted.imp ?_
  intro a b lower
  exact SourceName.under_lt p lower

/-- The map with every name in its place below a directory. -/
def under (directory : SourceName) (m : NameMap α) : NameMap α :=
  ⟨m.entries.map fun e => (directory.under e.1, e.2), sorted_under directory m.sorted⟩

theorem mem_entries_of_get? {m : NameMap α} {name : SourceName} {value : α}
    (found : m.get? name = some value) : (name, value) ∈ m.entries := by
  obtain ⟨entry, first, rfl⟩ := Option.map_eq_some_iff.mp found
  have same : entry.1 = name := by simpa using List.find?_some first
  exact same ▸ List.mem_of_find?_eq_some first

theorem get?_under (p : SourceName) (m : NameMap α) (name : SourceName) :
    (m.under p).get? (p.under name) = m.get? name := by
  simp only [get?, under, List.find?_map, Option.map_map, Function.comp_def,
    (p.under_injective).eq_iff]

end NameMap

namespace Compilation

/-- The compilation with all its files in their places below a directory, and their imports as they
were. -/
def under (directory : SourceName) (c : Compilation) : Compilation :=
  { c with
    target := directory.under c.target
    texts := c.texts.under directory
    units := c.units.under directory }

variable {c : Compilation} {p : SourceName}

/-- Files that import each other by relative specifiers, which never lead above the top and never to
the empty name, may be moved into a directory. The order moves along, and so does an error. -/
theorem order_moves_along (canonical : p.Canonical) (named : p.text ≠ "")
    (unrooted : Text.isRooted p.text = false)
    (unrootedFiles : ∀ name ∈ c.units.names, Text.isRooted name.text = false)
    (inside : ∀ name unit, Reached c.units c.target name → c.units.get? name = some unit →
      ∀ specifier ∈ unit.imports, SourceName.isRelative specifier ∧
        SourceName.NeverAbove
          (Text.pieces '/' name.directory ++ Text.pieces '/' specifier) ∧
        name.resolve specifier ≠ ⟨""⟩)
    (policy : Policy) :
    (c.under p).order policy =
      renameOutcome p.under (FlatOrder.rename p.under) (c.order policy) := by
  have renamed : RenamedUnits p.under c.units (c.under p).units
      (ImportClosure c.units c.target) := by
    refine ⟨p.under_injective, NameMap.get?_under p c.units, ?_⟩
    intro name unit member found specifier written
    obtain ⟨relative, below, somewhere⟩ :=
      inside name unit (member.reached found) found specifier written
    exact SourceName.resolve_under canonical named unrooted
      (unrootedFiles name (NameMap.mem_names_of_get? found)) relative below somewhere
  exact order_rename renamed rfl policy

/-- A file in a directory, under a name with a dot in it, and one beside the directory, which
imports itself. One import leads to no file. -/
def nested : Compilation where
  target := ⟨"d/./A"⟩
  units := .ofList [(⟨"d/./A"⟩, .ofImports ["../B", "./X"]), (⟨"B"⟩, .ofImports ["./B"])]

theorem discover_nested : discover nested.units ⟨.skip, .drop⟩ nested.target = .ok
    { graph := ⟨[⟨"d/./A"⟩, ⟨"B"⟩], [⟨⟨"d/./A"⟩, ⟨"B"⟩, "../B"⟩]⟩
      cycles := [⟨⟨"B"⟩, ⟨"B"⟩, "./B"⟩]
      skipped := [⟨⟨"d/./A"⟩, ⟨"d/X"⟩, "./X"⟩] } :=
  discover_of_runWithin rfl 6 (by decide)

theorem order_nested : nested.order ⟨.skip, .drop⟩ = .ok
    { names := [⟨"B"⟩, ⟨"d/./A"⟩]
      cycles := [⟨⟨"B"⟩, ⟨"B"⟩, "./B"⟩]
      skipped := [⟨⟨"d/./A"⟩, ⟨"d/X"⟩, "./X"⟩] } := by
  simp only [order, discover_nested]
  decide

theorem nested_moves_along : (⟨"lib/v1"⟩ : SourceName).Canonical ∧
    (nested.under ⟨"lib/v1"⟩).order ⟨.skip, .drop⟩ = .ok
      { names := [⟨"lib/v1/B"⟩, ⟨"lib/v1/d/./A"⟩]
        cycles := [⟨⟨"lib/v1/B"⟩, ⟨"lib/v1/B"⟩, "./B"⟩]
        skipped := [⟨⟨"lib/v1/d/./A"⟩, ⟨"lib/v1/d/X"⟩, "./X"⟩] } := by
  have canonical : (⟨"lib/v1"⟩ : SourceName).Canonical := ⟨["lib", "v1"], by decide, .inl rfl⟩
  have unrootedFiles : ∀ name ∈ nested.units.names, Text.isRooted name.text = false := by decide
  have inside : ∀ e ∈ nested.units.entries, ∀ specifier ∈ e.2.imports,
      SourceName.isRelative specifier ∧
      SourceName.NeverAbove (Text.pieces '/' e.1.directory ++ Text.pieces '/' specifier) ∧
      e.1.resolve specifier ≠ ⟨""⟩ := by decide
  refine ⟨canonical, ?_⟩
  rw [order_moves_along canonical (by decide) (by decide) unrootedFiles
    (fun name unit _ found => inside _ (NameMap.mem_entries_of_get? found)), order_nested]
  decide

end Compilation

end ImportFlattening
