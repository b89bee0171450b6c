import ImportFlattening.Proofs.CycleReport
import ImportFlattening.Proofs.DepthFirstRanks
import ImportFlattening.Proofs.FlattenOutcome
import Mathlib.Data.List.Chain

/-! # The reported cycle as a chain

A report prints its files as one chain of imports that returns to its start. They are the files of a
strongly connected component in the order in which they were found, and such a list is a chain only
where the component is a single loop. In general each file is imported by one listed before it, and
every file leads to every other through files of the list.
-/

namespace ImportFlattening

open Relation ImportGraph

section Chains

variable {α : Type} {r : α → α → Prop} {l : List α} {a b : α}

/-- A chain goes on from a member that nothing after the first member follows. -/
theorem isChain_concat (chain : l.IsChain r) (member : a ∈ l) (step : r a b)
    (unfollowed : ∀ c ∈ l.tail, ¬ r a c) : (l ++ [b]).IsChain r := by
  obtain ⟨before, after, rfl⟩ := List.append_of_mem member
  cases after with
  | nil =>
      refine List.isChain_append.mpr ⟨chain, .singleton b, ?_⟩
      simpa using step
  | cons c after =>
      have next : r a c := (List.isChain_append.mp chain).2.1.rel
      have later : c ∈ (before ++ a :: c :: after).tail := by cases before <;> simp
      exact absurd next (unfollowed c later)

/-- Where each member follows one before it, and none is followed by two, they follow each other. -/
theorem isChain_of_followed (nodup : l.Nodup)
    (follows : InOrder (fun before b => before = [] ∨ ∃ a ∈ before, r a b) l)
    (single : ∀ a ∈ l, ∀ b ∈ l, ∀ c ∈ l, r a b → r a c → b = c) : l.IsChain r := by
  induction l using List.reverseRecOn with
  | nil => exact .nil
  | append_singleton l b ih =>
      obtain ⟨unlisted, chained⟩ : b ∉ l ∧ l.IsChain r := by
        obtain ⟨front, -, apart⟩ := List.nodup_append.mp nodup
        refine ⟨fun member => apart b member b (List.mem_singleton.mpr rfl) rfl, ih front ?_ ?_⟩
        · intro before a after cut
          exact follows before a (after ++ [b]) (by rw [cut, List.append_assoc, List.cons_append])
        · intro a ha b hb c hc
          exact single a (List.mem_append_left _ ha) b (List.mem_append_left _ hb) c
            (List.mem_append_left _ hc)
      rcases follows l b [] rfl with none | ⟨a, member, step⟩
      · rw [none]
        exact .singleton b
      · refine isChain_concat chained member step ?_
        intro c later other
        have listed : c ∈ l := List.mem_of_mem_tail later
        have same := single a (List.mem_append_left _ member) c (List.mem_append_left _ listed) b
          (by simp) other step
        exact unlisted (same ▸ listed)

/-- If the first member follows some member as well, the chain closes. -/
theorem isChain_closed {first : α} {rest : List α} (nodup : (first :: rest).Nodup)
    (follows : InOrder (fun before b => before = [] ∨ ∃ a ∈ before, r a b) (first :: rest))
    (single : ∀ a ∈ first :: rest, ∀ b ∈ first :: rest, ∀ c ∈ first :: rest,
      r a b → r a c → b = c)
    (member : a ∈ first :: rest) (back : r a first) : (first :: rest ++ [first]).IsChain r := by
  refine isChain_concat (isChain_of_followed nodup follows single) member back ?_
  intro c later other
  have same := single a member first List.mem_cons_self c (List.mem_cons_of_mem _ later) back other
  exact (List.nodup_cons.mp nodup).1 (same ▸ later)

end Chains

/-- An import by one of the files, of one of them. -/
def ImportsWithin (units : NameMap SourceUnit) (files : List SourceName)
    (importer dependee : SourceName) : Prop :=
  importer ∈ files ∧ dependee ∈ files ∧ Imports units importer dependee

namespace ImportGraph

variable {g : ImportGraph} {m v a b : SourceName} {units : NameMap SourceUnit}

/-- A path to a file of higher rank has an edge that reaches or passes that rank. -/
theorem exists_crossing (path : ReflTransGen g.Edge a b) (lower : g.rank a < g.rank b) :
    ∃ u w, ReflTransGen g.Edge a u ∧ g.Edge u w ∧ g.rank u < g.rank b ∧ g.rank b ≤ g.rank w := by
  induction path using ReflTransGen.head_induction_on with
  | refl => exact absurd lower (Nat.lt_irrefl _)
  | @head a c edge _ ih =>
      by_cases beyond : g.rank b ≤ g.rank c
      · exact ⟨a, c, .refl, edge, lower, beyond⟩
      · obtain ⟨u, w, path, crossing⟩ := ih (Nat.lt_of_not_le beyond)
        exact ⟨u, w, .head edge path, crossing⟩

namespace FirstOnCycle

variable (first : g.FirstOnCycle m) (wellFormed : g.WellFormed)

include first wellFormed

/-- Of the files on the cycle, all but the first are imported by one that was found before. -/
theorem exists_importer (depthFirst : g.DepthFirst) (member : v ∈ g.firstCycle) (other : v ≠ m) :
    ∃ u ∈ g.firstCycle, g.Edge u v ∧ g.rank u < g.rank v := by
  have closed := wellFormed.closed
  obtain ⟨out, back⟩ := (mem_firstCycle first wellFormed).mp member
  have lower : g.rank m < g.rank v := by
    refine Nat.lt_of_le_of_ne (first.first v (back.trans out)) ?_
    intro same
    exact other (rank_inj (mem_names_of_cyclic closed first.cyclic) same).symm
  obtain ⟨a, c, path, edge, before, beyond⟩ := exists_crossing out.to_reflTransGen lower
  obtain ⟨u, onward, last, earlier⟩ :
      ∃ u, ReflTransGen g.Edge a u ∧ g.Edge u v ∧ g.rank u < g.rank v := by
    rcases Nat.eq_or_lt_of_le beyond with same | beyond
    · obtain rfl : v = c := rank_inj (mem_names_of_mem_firstCycle first closed member) same
      exact ⟨a, .refl, edge, before⟩
    · obtain ⟨u, last, since, earlier⟩ := depthFirst a v c edge before beyond
      have onward := depthFirst.path closed edge since (Nat.lt_trans earlier beyond)
      exact ⟨u, onward, last, earlier⟩
  refine ⟨u, (mem_firstCycle first wellFormed).mpr ⟨?_, .head last back⟩, last, earlier⟩
  exact first.cyclic.trans_left (path.trans onward)

/-- A path between two files on the cycle does not leave the cycle. -/
theorem path_within (imports : ∀ a b, g.Edge a b → Imports units a b) (start : a ∈ g.firstCycle)
    (path : TransGen g.Edge a b) (goal : b ∈ g.firstCycle) :
    TransGen (ImportsWithin units g.firstCycle) a b := by
  induction path using TransGen.head_induction_on with
  | single edge => exact .single ⟨start, goal, imports _ _ edge⟩
  | @head a c edge rest ih =>
      have out := ((mem_firstCycle first wellFormed).mp start).1
      have back := ((mem_firstCycle first wellFormed).mp goal).2
      have middle : c ∈ g.firstCycle :=
        (mem_firstCycle first wellFormed).mpr ⟨out.tail edge, rest.trans back⟩
      exact .head ⟨start, middle, imports _ _ edge⟩ (ih middle)

theorem leads_within (imports : ∀ a b, g.Edge a b → Imports units a b) (start : a ∈ g.firstCycle)
    (goal : b ∈ g.firstCycle) : TransGen (ImportsWithin units g.firstCycle) a b := by
  have back := ((mem_firstCycle first wellFormed).mp start).2
  have out := ((mem_firstCycle first wellFormed).mp goal).1
  exact first.path_within wellFormed imports start (back.trans out) goal

theorem sorted : g.firstCycle.Pairwise (fun a b => g.rank a < g.rank b) := by
  have ranks : (g.firstCycle.map g.rank).Pairwise (· < ·) := by
    rw [map_rank_firstCycle first wellFormed]
    exact sorted_cycleThrough _ _ _
  exact List.pairwise_map.mp ranks

theorem nodup : g.firstCycle.Nodup := by
  refine List.Pairwise.imp ?_ (first.sorted wellFormed)
  rintro a _ lower rfl
  exact Nat.lt_irrefl _ lower

/-- On the list of the cycle, a file that was found before another stands before it. -/
theorem mem_before {before after : List SourceName} {u : SourceName}
    (cut : g.firstCycle = before ++ v :: after) (member : u ∈ g.firstCycle)
    (lower : g.rank u < g.rank v) : u ∈ before := by
  have sorted := first.sorted wellFormed
  rw [cut, List.pairwise_append] at sorted
  rw [cut, List.mem_append, List.mem_cons] at member
  rcases member with here | rfl | later
  · exact here
  · exact absurd lower (Nat.lt_irrefl _)
  · exact absurd lower (Nat.lt_asymm ((List.pairwise_cons.mp sorted.2.1).1 u later))

/-- Each file of the list but the first is imported by one listed before it. -/
theorem followed (imports : ∀ a b, g.Edge a b → Imports units a b) (depthFirst : g.DepthFirst) :
    InOrder (fun before file => before = [] ∨ ∃ importer ∈ before, Imports units importer file)
      g.firstCycle := by
  intro before v after cut
  by_cases start : before = []
  · exact .inl start
  · have member : v ∈ g.firstCycle := by simp [cut]
    have other : v ≠ m := by
      rintro rfl
      -- whatever stands before `v` was found before it, and lies on a cycle
      obtain ⟨u, earlier⟩ := List.exists_mem_of_ne_nil _ start
      obtain ⟨out, back⟩ :=
        (mem_firstCycle first wellFormed).mp (cut ▸ List.mem_append_left _ earlier)
      have sorted := first.sorted wellFormed
      rw [cut, List.pairwise_append] at sorted
      have lower := sorted.2.2 u earlier v List.mem_cons_self
      exact absurd lower (Nat.not_lt_of_le (first.first u (back.trans out)))
    obtain ⟨u, listed, edge, lower⟩ := first.exists_importer wellFormed depthFirst member other
    exact .inr ⟨u, first.mem_before wellFormed cut listed lower, imports _ _ edge⟩

end FirstOnCycle

end ImportGraph

instance (units : NameMap SourceUnit) (importer dependee : SourceName) :
    Decidable (Imports units importer dependee) :=
  inferInstanceAs (Decidable (∃ i ∈ importsOf units importer, i.dependee = dependee))

namespace Compilation

variable {c : Compilation} {policy : Policy} {cycle : List SourceName}

theorem linearize_of_order_cycle (failed : c.order policy = .error (.importCycle cycle)) :
    ∃ d, discover c.units policy c.target = .ok d ∧
      d.graph.linearize c.target = .error (.importCycle cycle) := by
  by_cases known : c.units.contains c.target
  · rcases discover_cases policy known with ⟨i, -, -, refused⟩ | ⟨-, d, discovered⟩
    · simp [order, refused, bind, Except.bind] at failed
    · refine ⟨d, discovered, ?_⟩
      cases linear : d.graph.linearize c.target with
      | error e => simpa [order, discovered, linear, bind, Except.bind] using failed
      | ok names =>
          simp [order, discovered, linear, bind, Except.bind, pure, Except.pure] at failed
  · simp [order, discover_unknown policy known, bind, Except.bind] at failed

/-- The files of a reported cycle are different, each leads to each through imports by files of the
list, and each but the first is imported by one listed before it. The text shows them as a chain
that returns to its first member. They are such a chain where every file imports only one of them. -/
theorem reported_files_import_each_other
    (failed : c.order policy = .error (.importCycle cycle)) :
    cycle.Nodup ∧
    (∀ a ∈ cycle, ∀ b ∈ cycle, TransGen (ImportsWithin c.units cycle) a b) ∧
    InOrder (fun before file => before = [] ∨ ∃ importer ∈ before, Imports c.units importer file)
      cycle ∧
    ∃ first rest, cycle = first :: rest ∧
      (Error.importCycle cycle).message =
        "import cycle: " ++ " -> ".intercalate ((cycle ++ [first]).map SourceName.text) ∧
      ((∀ importer ∈ cycle, ∀ a ∈ cycle, ∀ b ∈ cycle,
          Imports c.units importer a → Imports c.units importer b → a = b) →
        (cycle ++ [first]).IsChain (Imports c.units)) := by
  obtain ⟨d, discovered, failed⟩ := linearize_of_order_cycle failed
  have traversal := traversal_of_discover discovered
  have wellFormed : d.graph.WellFormed :=
    ⟨traversal.names.nodup_iff.mpr traversal.nodup, traversal.closed⟩
  obtain rfl : cycle = d.graph.firstCycle := Error.importCycle.inj (linearize_error failed)
  obtain ⟨file, cyclic⟩ := exists_cyclic_of_error wellFormed failed
  obtain ⟨m, first⟩ := exists_firstOnCycle cyclic
  have imports : ∀ a b, d.graph.Edge a b → Imports c.units a b :=
    fun _ _ edge => (traversal.edge_among edge).2.2
  have nodup := first.nodup wellFormed
  have follows := first.followed wellFormed imports (depthFirst_of_discover discovered)
  have within : ∀ a ∈ d.graph.firstCycle, ∀ b ∈ d.graph.firstCycle,
      TransGen (ImportsWithin c.units d.graph.firstCycle) a b :=
    fun _ start _ goal => first.leads_within wellFormed imports start goal
  refine ⟨nodup, within, follows, ?_⟩
  have member : m ∈ d.graph.firstCycle :=
    (mem_firstCycle first wellFormed).mpr ⟨first.cyclic, first.cyclic⟩
  cases shape : d.graph.firstCycle with
  | nil =>
      rw [shape] at member
      cases member
  | cons head rest =>
      rw [shape] at nodup within follows
      refine ⟨head, rest, rfl, rfl, ?_⟩
      intro single
      obtain ⟨last, -, listed, -, back⟩ :=
        TransGen.tail'_iff.mp (within head List.mem_cons_self head List.mem_cons_self)
      exact isChain_closed nodup follows single listed back

/-- `A` leads to a circle of `B`, `C` and `D`. `B` imports `C` by two specifiers. -/
def circled : Compilation where
  target := ⟨"A"⟩
  units := .ofList [(⟨"A"⟩, .ofImports ["./B"]), (⟨"B"⟩, .ofImports ["./C", "C"]),
    (⟨"C"⟩, .ofImports ["./D"]), (⟨"D"⟩, .ofImports ["./B"])]

theorem discover_circled : discover circled.units ⟨.fail, .keep⟩ circled.target = .ok
    { graph :=
        { names := [⟨"A"⟩, ⟨"B"⟩, ⟨"C"⟩, ⟨"D"⟩]
          edges := [⟨⟨"A"⟩, ⟨"B"⟩, "./B"⟩, ⟨⟨"B"⟩, ⟨"C"⟩, "./C"⟩, ⟨⟨"C"⟩, ⟨"D"⟩, "./D"⟩,
            ⟨⟨"D"⟩, ⟨"B"⟩, "./B"⟩] }
      cycles := [⟨⟨"D"⟩, ⟨"B"⟩, "./B"⟩] } :=
  discover_of_runWithin rfl 10 (by decide)

theorem circled_chain :
    circled.order ⟨.fail, .keep⟩ = .error (.importCycle [⟨"B"⟩, ⟨"C"⟩, ⟨"D"⟩]) ∧
    (Error.importCycle [⟨"B"⟩, ⟨"C"⟩, ⟨"D"⟩]).message = "import cycle: B -> C -> D -> B" ∧
    TransGen (ImportsWithin circled.units [⟨"B"⟩, ⟨"C"⟩, ⟨"D"⟩]) ⟨"D"⟩ ⟨"C"⟩ ∧
    [⟨"B"⟩, ⟨"C"⟩, ⟨"D"⟩, ⟨"B"⟩].IsChain (Imports circled.units) := by
  have failed : circled.order ⟨.fail, .keep⟩ = .error (.importCycle [⟨"B"⟩, ⟨"C"⟩, ⟨"D"⟩]) := by
    simp only [order, discover_circled]
    decide
  obtain ⟨-, within, -, first, rest, shape, message, chain⟩ :=
    reported_files_import_each_other failed
  obtain ⟨rfl, rfl⟩ := List.cons.inj shape
  refine ⟨failed, message.trans (by decide), within _ (by simp) _ (by simp), chain (by decide)⟩

/-- `B` and `C` both import `A`, which imports both. -/
def forked : Compilation where
  target := ⟨"A"⟩
  units := .ofList [(⟨"A"⟩, .ofImports ["./B", "./C"]), (⟨"B"⟩, .ofImports ["./A"]),
    (⟨"C"⟩, .ofImports ["./A"])]

theorem discover_forked : discover forked.units ⟨.fail, .keep⟩ forked.target = .ok
    { graph :=
        { names := [⟨"A"⟩, ⟨"B"⟩, ⟨"C"⟩]
          edges := [⟨⟨"A"⟩, ⟨"B"⟩, "./B"⟩, ⟨⟨"B"⟩, ⟨"A"⟩, "./A"⟩, ⟨⟨"A"⟩, ⟨"C"⟩, "./C"⟩,
            ⟨⟨"C"⟩, ⟨"A"⟩, "./A"⟩] }
      cycles := [⟨⟨"B"⟩, ⟨"A"⟩, "./A"⟩, ⟨⟨"C"⟩, ⟨"A"⟩, "./A"⟩] } :=
  discover_of_runWithin rfl 8 (by decide)

/-- Files that stand side by side in the text need not import each other. -/
theorem forked_unchained :
    forked.order ⟨.fail, .keep⟩ = .error (.importCycle [⟨"A"⟩, ⟨"B"⟩, ⟨"C"⟩]) ∧
    (Error.importCycle [⟨"A"⟩, ⟨"B"⟩, ⟨"C"⟩]).message = "import cycle: A -> B -> C -> A" ∧
    ¬ Imports forked.units ⟨"B"⟩ ⟨"C"⟩ := by
  refine ⟨?_, by decide, by decide⟩
  simp only [order, discover_forked]
  decide

end Compilation

end ImportFlattening
