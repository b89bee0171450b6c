import ImportFlattening.ImportGraph
import Mathlib.Data.List.Basic
import Mathlib.Logic.Relation

/-! # The import relation

Files are related by the imports of a compilation, whether or not a graph has been built, and by
the edges of a graph. Positions in an order are spoken of through `InOrder`, which relates each
member of a list to the members before it.
-/

namespace ImportFlattening

open Relation

/-- The imports of the file `name`, in source order. A file without a syntax tree has none. -/
def importsOf (units : NameMap SourceUnit) (name : SourceName) : List Import :=
  match units.get? name with
  | none => []
  | some unit => unit.importsFrom name

/-- Some import of `importer` resolves to `dependee`. -/
def Imports (units : NameMap SourceUnit) (importer dependee : SourceName) : Prop :=
  ∃ i ∈ importsOf units importer, i.dependee = dependee

/-- `name` has a syntax tree, and following imports leads from `target` to it. -/
def Reached (units : NameMap SourceUnit) (target name : SourceName) : Prop :=
  units.contains name ∧ ReflTransGen (Imports units) target name

section Imports

variable {units : NameMap SourceUnit} {name : SourceName} {unit : SourceUnit} {i : Import}

theorem importsOf_found (found : units.get? name = some unit) :
    importsOf units name = unit.importsFrom name := by
  simp only [importsOf, found]

theorem importer_of_mem_importsFrom (member : i ∈ unit.importsFrom name) : i.importer = name := by
  obtain ⟨specifier, -, rfl⟩ := List.mem_map.mp member
  rfl

theorem importer_of_mem (member : i ∈ importsOf units name) : i.importer = name := by
  unfold importsOf at member
  split at member
  · simp at member
  · exact importer_of_mem_importsFrom member

theorem contains_found (found : units.get? name = some unit) : units.contains name := by
  simp [NameMap.contains, found]

theorem contains_missing (missing : units.get? name = none) : units.contains name = false := by
  simp [NameMap.contains, missing]

theorem contains_of_mem (member : i ∈ importsOf units name) : units.contains name := by
  unfold importsOf at member
  split at member
  · simp at member
  · rename_i found
    exact contains_found found

end Imports

theorem idxOf_map_of_inj {α β : Type} [DecidableEq α] [DecidableEq β] {f : α → β} {l : List α} {a : α}
    (inj : ∀ b ∈ l, f b = f a → b = a) : (l.map f).idxOf (f a) = l.idxOf a := by
  induction l with
  | nil => rfl
  | cons b rest ih =>
      obtain ⟨first, others⟩ := List.forall_mem_cons.mp inj
      have same : f b = f a ↔ b = a := ⟨first, fun equal => congrArg f equal⟩
      simp only [List.map_cons, List.idxOf_cons, beq_eq_decide, same, ih others]

theorem acyclic_of_rank {α : Type} {r : α → α → Prop} (rank : α → Nat)
    (decreasing : ∀ a b, r a b → rank b < rank a) (a : α) : ¬ TransGen r a a := by
  have lower : ∀ b, TransGen r a b → rank b < rank a := by
    intro b path
    induction path with
    | single step => exact decreasing _ _ step
    | tail _ step ih => exact Nat.lt_trans (decreasing _ _ step) ih
  exact fun path => Nat.lt_irrefl _ (lower a path)

namespace ImportGraph

/-- Some edge leads from `importer` to `dependee`. -/
def Edge (g : ImportGraph) (importer dependee : SourceName) : Prop :=
  ∃ e ∈ g.edges, e.importer = importer ∧ e.dependee = dependee

/-- The position of a file in the order of discovery. -/
def rank (g : ImportGraph) (name : SourceName) : Nat := g.names.idxOf name

variable {g h : ImportGraph} {i : Import} {a b : SourceName}

theorem mem_links {u v : Nat} :
    (u, v) ∈ g.links ↔ ∃ e ∈ g.edges, g.rank e.importer = u ∧ g.rank e.dependee = v := by
  simp [links, rank]

theorem link_of_edge (edge : g.Edge a b) : (g.rank a, g.rank b) ∈ g.links := by
  obtain ⟨e, member, rfl, rfl⟩ := edge
  exact mem_links.mpr ⟨e, member, rfl, rfl⟩

theorem rank_inj (member : a ∈ g.names) (same : g.rank a = g.rank b) : a = b :=
  (List.idxOf_inj member).mp same

theorem rank_of_grown (grown : g.names <+: h.names) (member : a ∈ g.names) :
    h.rank a = g.rank a := by
  obtain ⟨later, names⟩ := grown
  rw [rank, ← names, List.idxOf_append_of_mem member, rank]

theorem length_le_rank (grown : g.names <+: h.names) (new : b ∉ g.names) :
    g.names.length ≤ h.rank b := by
  obtain ⟨later, names⟩ := grown
  rw [rank, ← names, List.idxOf_append_of_notMem new]
  exact Nat.le_add_right _ _

theorem rank_lt_of_grown (grown : g.names <+: h.names) (old : a ∈ g.names) (new : b ∉ g.names) :
    h.rank a < h.rank b := by
  have bound : g.rank a < g.names.length := List.idxOf_lt_length_of_mem old
  rw [rank_of_grown grown old]
  exact Nat.lt_of_lt_of_le bound (length_le_rank grown new)

theorem hasEdge_iff : g.hasEdge a b = true ↔ g.Edge a b := by
  simp [hasEdge, Edge]

theorem Edge.mono (grown : g.edges ⊆ h.edges) (edge : g.Edge a b) : h.Edge a b := by
  obtain ⟨e, member, ends⟩ := edge
  exact ⟨e, grown member, ends⟩

theorem path_mono (grown : g.edges ⊆ h.edges) (path : ReflTransGen g.Edge a b) :
    ReflTransGen h.Edge a b :=
  ReflTransGen.mono (fun _ _ edge => edge.mono grown) _ _ path

@[simp] theorem edges_addName (g : ImportGraph) (name : SourceName) :
    (g.addName name).edges = g.edges := by
  unfold addName
  split <;> rfl

@[simp] theorem edges_addEdge (g : ImportGraph) (i : Import) :
    (g.addEdge i).edges = g.edges ++ [i] := by
  simp [addEdge]

theorem names_addName (g : ImportGraph) (name : SourceName) :
    (g.addName name).names = if name ∈ g.names then g.names else g.names ++ [name] := by
  unfold addName
  split <;> rfl

theorem names_addEdge_congr (same : g.names = h.names) (i : Import) :
    (g.addEdge i).names = (h.addEdge i).names := by
  simp only [addEdge, names_addName, same]

theorem addName_known (known : a ∈ g.names) : g.addName a = g := by
  simp [addName, known]

theorem names_addEdge_known (importer : i.importer ∈ g.names) (dependee : i.dependee ∈ g.names) :
    (g.addEdge i).names = g.names := by
  simp only [addEdge, addName_known importer, addName_known dependee]

theorem names_addEdge_fresh (importer : i.importer ∈ g.names) (fresh : i.dependee ∉ g.names) :
    (g.addEdge i).names = g.names ++ [i.dependee] := by
  have known : g.addName i.importer = g := addName_known importer
  simp only [addEdge, known]
  simp only [addName, if_neg fresh]

end ImportGraph

section InOrder

variable {α : Type} {P Q : List α → α → Prop} {l m : List α} {a : α}

/-- Every member of the list stands in the relation `P` to those before it. -/
def InOrder (P : List α → α → Prop) (l : List α) : Prop :=
  ∀ before a after, l = before ++ a :: after → P before a

namespace InOrder

theorem nil : InOrder P [] := by
  intro before a after cut
  simp at cut

theorem single (holds : P [] a) : InOrder P [a] := by
  intro before b after cut
  cases before with
  | nil =>
      obtain ⟨rfl, -⟩ := List.cons.inj cut
      exact holds
  | cons c before => simp at cut

theorem append (left : InOrder P l) (right : InOrder (fun before a => P (l ++ before) a) m) :
    InOrder P (l ++ m) := by
  intro before a after cut
  rcases List.append_eq_append_iff.mp cut with ⟨gap, inRight, rest⟩ | ⟨gap, inLeft, rest⟩
  · rw [inRight]
    exact right gap a after rest
  · cases gap with
    | nil =>
        rw [List.append_nil] at inLeft
        have first : P (l ++ []) a := right [] a after rest.symm
        rwa [List.append_nil, inLeft] at first
    | cons b gap =>
        obtain ⟨rfl, rfl⟩ := List.cons.inj rest
        exact left before a gap inLeft

theorem imp (step : ∀ before, ∀ a ∈ l, before ⊆ l → P before a → Q before a)
    (holds : InOrder P l) : InOrder Q l := by
  intro before a after cut
  have member : a ∈ l := by simp [cut]
  have inside : before ⊆ l := by simp [cut]
  exact step before a member inside (holds before a after cut)

theorem idxOf_lt_iff {α : Type} [DecidableEq α] {l before after : List α} {a : α} (b : α)
    (nodup : l.Nodup) (cut : l = before ++ a :: after) : l.idxOf b < l.idxOf a ↔ b ∈ before := by
  subst cut
  have absent : a ∉ before := by
    intro member
    exact (List.nodup_append.mp nodup).2.2 a member a List.mem_cons_self rfl
  have position : (before ++ a :: after).idxOf a = before.length := by
    simp [List.idxOf_append_of_notMem absent]
  rw [position]
  constructor
  · intro lower
    by_contra other
    rw [List.idxOf_append_of_notMem other] at lower
    omega
  · intro member
    rw [List.idxOf_append_of_mem member]
    exact List.idxOf_lt_length_of_mem member

theorem map {β : Type} {P : List β → β → Prop} (f : α → β)
    (holds : InOrder (fun before a => P (before.map f) (f a)) l) : InOrder P (l.map f) := by
  intro before b after cut
  obtain ⟨left, right, joined, rfl, mapped⟩ := List.map_eq_append_iff.mp cut
  obtain ⟨a, rest, rfl, rfl, -⟩ := List.map_eq_cons_iff.mp mapped
  exact holds left a rest joined

end InOrder

end InOrder

end ImportFlattening
