import ImportFlattening.Proofs.GreatestOrder

/-! # The cycle that is reported

Where a graph cannot be peeled to the end, some file lies on a cycle. The first one found of those
that do stands for the report, which names every file that it leads to and that leads to it. These
files are a strongly connected component of the graph. Whoever knows all components, in whatever
order, finds the same one by leaving out those without a cycle, sorting the others and taking the
least of them (`Components.leastComponent_eq`).
-/

namespace ImportFlattening

open Relation

namespace ImportGraph

/-- The ranks that `m` leads to and that lead to `m`, in increasing order. -/
def cycleThrough (links : List (Nat × Nat)) (size m : Nat) : List Nat :=
  (List.range size).filter fun v =>
    v ∈ reachable links size m && v ∈ reachable (links.map Prod.swap) size m

section Cycle

variable {links : List (Nat × Nat)} {size m u v : Nat}

theorem transGen_linked_swap :
    TransGen (Linked (links.map Prod.swap)) u v ↔ TransGen (Linked links) v u := by
  have swapped : Linked (links.map Prod.swap) = Function.swap (Linked links) := by
    funext a b
    simp [Linked, Function.swap]
  rw [swapped, transGen_swap]

theorem lt_of_transGen (inside : ∀ link ∈ links, link.1 < size ∧ link.2 < size)
    (path : TransGen (Linked links) u v) : v < size := by
  obtain ⟨_, -, link⟩ := TransGen.tail'_iff.mp path
  exact (inside _ link).2

theorem mem_cycleThrough (inside : ∀ link ∈ links, link.1 < size ∧ link.2 < size) :
    v ∈ cycleThrough links size m ↔
      TransGen (Linked links) m v ∧ TransGen (Linked links) v m := by
  simp only [cycleThrough, List.mem_filter, List.mem_range, Bool.and_eq_true, decide_eq_true_eq,
    mem_reachable_iff inside, mem_reachable_iff (inside_swap inside), transGen_linked_swap]
  exact and_iff_right_of_imp fun both => lt_of_transGen inside both.1

theorem sorted_cycleThrough (links : List (Nat × Nat)) (size m : Nat) :
    (cycleThrough links size m).Pairwise (· < ·) :=
  List.pairwise_lt_range.filter _

/-- The lowest rank on a cycle is the first of its own cycle. -/
theorem cycleThrough_eq_cons (inside : ∀ link ∈ links, link.1 < size ∧ link.2 < size)
    (first : IsLeast {v | TransGen (Linked links) v v} m) :
    ∃ rest, cycleThrough links size m = m :: rest := by
  have member : m ∈ cycleThrough links size m := (mem_cycleThrough inside).mpr ⟨first.1, first.1⟩
  have sorted := sorted_cycleThrough links size m
  cases shape : cycleThrough links size m with
  | nil =>
      rw [shape] at member
      cases member
  | cons c rest =>
      rw [shape] at member sorted
      have own : c ∈ cycleThrough links size m := shape ▸ List.mem_cons_self
      obtain ⟨out, back⟩ := (mem_cycleThrough inside).mp own
      have lowest : m ≤ c := first.2 (back.trans out)
      rcases List.mem_cons.mp member with rfl | later
      · exact ⟨rest, rfl⟩
      · have above := (List.pairwise_cons.mp sorted).1 m later
        omega

theorem find?_reachable (inside : ∀ link ∈ links, link.1 < size ∧ link.2 < size)
    (first : IsLeast {v | TransGen (Linked links) v v} m) :
    (List.range size).find? (fun v => v ∈ reachable links size v) = some m := by
  rw [List.find?_range_eq_some]
  simp only [mem_reachable_iff inside, decide_eq_true_eq, List.mem_range, Bool.not_eq_eq_eq_not,
    Bool.not_true, decide_eq_false_iff_not]
  refine ⟨first.1, lt_of_transGen inside first.1, ?_⟩
  intro v lower cyclic
  exact absurd (first.2 cyclic) (Nat.not_le_of_lt lower)

end Cycle

/-- The strongly connected components, listed in any order: each rank stands in one, together with
the ranks that it leads to and that lead to it. -/
structure Components (links : List (Nat × Nat)) (size : Nat) (components : List (List Nat)) :
    Prop where
  covers : ∀ v < size, ∃ component ∈ components, v ∈ component
  nonempty : [] ∉ components
  nodup : ∀ component ∈ components, component.Nodup
  mem_iff : ∀ component ∈ components, ∀ u ∈ component, ∀ v, v ∈ component ↔
    v < size ∧ ReflTransGen (Linked links) u v ∧ ReflTransGen (Linked links) v u

/-- Whether a component is more than a single rank that has no link to itself. -/
def hasCycle (links : List (Nat × Nat)) : (component : List Nat) → Bool
  | [v] => (v, v) ∈ links
  | _ => true

/-- The least of the components with a cycle, all of them in increasing order. -/
def leastComponent (links : List (Nat × Nat)) (components : List (List Nat)) : List Nat :=
  (((components.filter (hasCycle links)).map fun component =>
    component.mergeSort (· ≤ ·)).mergeSort (· ≤ ·)).headD []

namespace Components

variable {links : List (Nat × Nat)} {size m v : Nat} {components : List (List Nat)}
  {component : List Nat}

theorem headD_mergeSort {l : List (List Nat)} {least : List Nat} (member : least ∈ l)
    (lowest : ∀ other ∈ l, least ≤ other) : (l.mergeSort (· ≤ ·)).headD [] = least := by
  have sorted := List.pairwise_mergeSort' (· ≤ ·) l
  have sortedMember : least ∈ l.mergeSort (· ≤ ·) := List.mem_mergeSort.mpr member
  cases shape : l.mergeSort (· ≤ ·) with
  | nil =>
      rw [shape] at sortedMember
      cases sortedMember
  | cons head rest =>
      rw [shape] at sortedMember sorted
      have upper : least ≤ head := lowest head (List.mem_mergeSort.mp (shape ▸ List.mem_cons_self))
      rcases List.mem_cons.mp sortedMember with rfl | later
      · rfl
      · exact le_antisymm ((List.pairwise_cons.mp sorted).1 least later) upper

theorem sorted_eq (h : Components links size components)
    (inside : ∀ link ∈ links, link.1 < size ∧ link.2 < size)
    (cyclic : TransGen (Linked links) m m) (among : component ∈ components)
    (member : m ∈ component) : component.mergeSort (· ≤ ·) = cycleThrough links size m := by
  have members : ∀ v, v ∈ component ↔ v ∈ cycleThrough links size m := by
    intro v
    rw [h.mem_iff component among m member, mem_cycleThrough inside]
    constructor
    · rintro ⟨-, out, back⟩
      exact ⟨cyclic.trans_left out, .trans_right back cyclic⟩
    · rintro ⟨out, back⟩
      exact ⟨lt_of_transGen inside out, out.to_reflTransGen, back.to_reflTransGen⟩
  have sorted := sorted_cycleThrough links size m
  have perm : (component.mergeSort (· ≤ ·)).Perm (cycleThrough links size m) :=
    (List.mergeSort_perm _ _).trans
      ((List.perm_ext_iff_of_nodup (h.nodup component among) sorted.nodup).mpr members)
  exact perm.eq_of_pairwise' (List.pairwise_mergeSort' (· ≤ ·) component)
    (sorted.imp Nat.le_of_lt)

theorem cyclic_of_hasCycle (h : Components links size components)
    (among : component ∈ components) (cycle : hasCycle links component) (member : v ∈ component) :
    TransGen (Linked links) v v := by
  unfold hasCycle at cycle
  split at cycle
  case h_1 w =>
    obtain rfl := List.mem_singleton.mp member
    have link : (v, v) ∈ links := by simpa using cycle
    exact .single link
  case h_2 several =>
    -- another member, which `v` leads to and which leads back
    obtain ⟨w, other, different⟩ : ∃ w ∈ component, w ≠ v := by
      rcases component with _ | ⟨a, _ | ⟨b, rest⟩⟩
      · cases member
      · exact absurd rfl (several a)
      · have apart : a ≠ b := by
          rintro rfl
          exact (List.nodup_cons.mp (h.nodup _ among)).1 List.mem_cons_self
        by_cases here : a = v
        · exact ⟨b, by simp, fun same => apart (here.trans same.symm)⟩
        · exact ⟨a, List.mem_cons_self, here⟩
    obtain ⟨-, out, back⟩ := (h.mem_iff component among v member w).mp other
    have path := (reflTransGen_iff_eq_or_transGen.mp out).resolve_left different
    exact path.trans_left back

theorem hasCycle_of_cyclic (h : Components links size components)
    (inside : ∀ link ∈ links, link.1 < size ∧ link.2 < size)
    (cyclic : TransGen (Linked links) m m) (among : component ∈ components)
    (member : m ∈ component) : hasCycle links component := by
  unfold hasCycle
  split
  case h_1 w =>
    -- the first link of the cycle leads to a member of the component, and so back at once
    obtain rfl := List.mem_singleton.mp member
    obtain ⟨next, link, back⟩ := TransGen.head'_iff.mp cyclic
    have same := (h.mem_iff _ among m member next).mpr ⟨(inside _ link).2, .single link, back⟩
    rw [List.mem_singleton.mp same] at link
    exact decide_eq_true link
  case h_2 => rfl

theorem leastComponent_eq (h : Components links size components)
    (inside : ∀ link ∈ links, link.1 < size ∧ link.2 < size)
    (first : IsLeast {v | TransGen (Linked links) v v} m) :
    leastComponent links components = cycleThrough links size m := by
  obtain ⟨own, among, member⟩ := h.covers m (lt_of_transGen inside first.1)
  have own_eq := h.sorted_eq inside first.1 among member
  have listed : cycleThrough links size m ∈
      (components.filter (hasCycle links)).map (·.mergeSort (· ≤ ·)) := by
    refine List.mem_map.mpr ⟨own, List.mem_filter.mpr ⟨among, ?_⟩, own_eq⟩
    exact h.hasCycle_of_cyclic inside first.1 among member
  have least : ∀ other ∈ (components.filter (hasCycle links)).map (·.mergeSort (· ≤ ·)),
      cycleThrough links size m ≤ other := by
    intro other otherListed
    obtain ⟨component, kept, rfl⟩ := List.mem_map.mp otherListed
    obtain ⟨among, cycle⟩ := List.mem_filter.mp kept
    by_cases shared : m ∈ component
    · exact (h.sorted_eq inside first.1 among shared).ge
    · obtain ⟨rest, own⟩ := cycleThrough_eq_cons inside first
      cases shape : component.mergeSort (· ≤ ·) with
      | nil =>
          have none : component = [] := by simpa using congrArg List.length shape
          exact absurd (none ▸ among) h.nonempty
      | cons d ds =>
          have inner : d ∈ component := List.mem_mergeSort.mp (shape ▸ List.mem_cons_self)
          have lower : m ≤ d := first.2 (h.cyclic_of_hasCycle among cycle inner)
          have different : m ≠ d := fun same => shared (same ▸ inner)
          rw [own]
          exact le_of_lt (List.cons_lt_cons_iff.mpr (.inl (lt_of_le_of_ne lower different)))
  exact headD_mergeSort listed least

/-- To know the components it is enough to search from each of their members. -/
theorem of_reachable (inside : ∀ link ∈ links, link.1 < size ∧ link.2 < size)
    (covers : ∀ v < size, ∃ component ∈ components, v ∈ component) (nonempty : [] ∉ components)
    (nodup : ∀ component ∈ components, component.Nodup)
    (bounded : ∀ component ∈ components, ∀ v ∈ component, v < size)
    (members : ∀ component ∈ components, ∀ u ∈ component, ∀ v < size, v ∈ component ↔
      v = u ∨ v ∈ reachable links size u ∧ u ∈ reachable links size v) :
    Components links size components where
  covers := covers
  nonempty := nonempty
  nodup := nodup
  mem_iff := by
    intro component among u member v
    have inner := bounded component among v
    have same := members component among u member v
    rw [mem_reachable_iff inside, mem_reachable_iff inside] at same
    rw [reflTransGen_iff_eq_or_transGen, reflTransGen_iff_eq_or_transGen]
    grind

end Components

/-- `file` lies on a cycle, and is the first found of the files that do. -/
structure FirstOnCycle (g : ImportGraph) (file : SourceName) : Prop where
  cyclic : TransGen g.Edge file file
  first : ∀ other, TransGen g.Edge other other → g.rank file ≤ g.rank other

section Report

variable {g : ImportGraph} {target m v : SourceName} {cycle : List SourceName}

theorem mem_names_of_cyclic (closed : g.Closed) (cyclic : TransGen g.Edge m m) : m ∈ g.names := by
  obtain ⟨_, ⟨e, member, rfl, -⟩, -⟩ := TransGen.head'_iff.mp cyclic
  exact (closed e member).1

theorem transGen_links (path : TransGen g.Edge m v) :
    TransGen (Linked g.links) (g.rank m) (g.rank v) :=
  TransGen.lift g.rank (fun _ _ edge => link_of_edge edge) _ _ path

theorem transGen_edge (closed : g.Closed) (known : m ∈ g.names) (known' : v ∈ g.names)
    (path : TransGen (Linked g.links) (g.rank m) (g.rank v)) : TransGen g.Edge m v := by
  obtain ⟨a, -, b, -, path, first, last⟩ := exists_path_of_links closed path
  obtain rfl : m = a := rank_inj known first.symm
  obtain rfl : v = b := rank_inj known' last.symm
  exact path

theorem FirstOnCycle.isLeast (first : g.FirstOnCycle m) (closed : g.Closed) :
    IsLeast {v | TransGen (Linked g.links) v v} (g.rank m) := by
  refine ⟨transGen_links first.cyclic, ?_⟩
  intro v path
  obtain ⟨a, known, b, -, path, rfl, last⟩ := exists_path_of_links closed path
  obtain rfl : a = b := rank_inj known last.symm
  exact first.first a path

theorem firstCycle_eq (first : g.FirstOnCycle m) (closed : g.Closed) : g.firstCycle =
    (cycleThrough g.links g.names.length (g.rank m)).filterMap (g.names[·]?) := by
  have found := find?_reachable closed.links (first.isLeast closed)
  simp only [firstCycle, found]
  rfl

theorem map_rank_firstCycle (first : g.FirstOnCycle m) (wellFormed : g.WellFormed) :
    g.firstCycle.map g.rank = cycleThrough g.links g.names.length (g.rank m) := by
  rw [firstCycle_eq first wellFormed.closed, map_rank_filterMap wellFormed.nodup]
  intro v member
  exact List.mem_range.mp (List.mem_of_mem_filter member)

theorem mem_names_of_mem_firstCycle (first : g.FirstOnCycle m) (closed : g.Closed)
    (member : v ∈ g.firstCycle) : v ∈ g.names := by
  rw [firstCycle_eq first closed] at member
  obtain ⟨r, -, found⟩ := List.mem_filterMap.mp member
  exact List.mem_of_getElem? found

theorem mem_firstCycle (first : g.FirstOnCycle m) (wellFormed : g.WellFormed) :
    v ∈ g.firstCycle ↔ TransGen g.Edge m v ∧ TransGen g.Edge v m := by
  have closed := wellFormed.closed
  have ranks := map_rank_firstCycle first wellFormed
  have known := mem_names_of_cyclic closed first.cyclic
  constructor
  · intro member
    have known' := mem_names_of_mem_firstCycle first closed member
    have rank : g.rank v ∈ g.firstCycle.map g.rank := List.mem_map_of_mem member
    rw [ranks, mem_cycleThrough closed.links] at rank
    exact ⟨transGen_edge closed known known' rank.1, transGen_edge closed known' known rank.2⟩
  · rintro ⟨out, back⟩
    have rank := (mem_cycleThrough closed.links).mpr ⟨transGen_links out, transGen_links back⟩
    rw [← ranks] at rank
    obtain ⟨w, member, same⟩ := List.mem_map.mp rank
    rwa [← rank_inj (mem_names_of_mem_firstCycle first closed member) same]

theorem exists_firstOnCycle {file : SourceName} (cyclic : TransGen g.Edge file file) :
    ∃ m, g.FirstOnCycle m := by
  obtain ⟨m, own, lowest⟩ := (measure g.rank).wf.has_min {m | TransGen g.Edge m m} ⟨file, cyclic⟩
  exact ⟨m, own, fun other cyclic => Nat.le_of_not_lt (lowest other cyclic)⟩

theorem exists_cyclic_of_error {e : Error} (wellFormed : g.WellFormed)
    (failed : g.linearize target = .error e) : ∃ file, TransGen g.Edge file file := by
  by_contra! acyclic
  have linear : ∃ order, g.linearize target = .ok order := by
    by_cases edges : g.hasEdges
    · exact linearize_of_acyclic wellFormed edges acyclic target
    · exact ⟨[target], by rw [linearize, if_neg edges]⟩
  obtain ⟨order, done⟩ := linear
  rw [failed] at done
  cases done

/-- A graph that cannot be put in order has a cycle. If `m` is the file found first of all that lie
on one, the report consists of `m` and of the files that `m` leads to and that lead to `m`, each once
and in the order in which they were found. It is the least of the strongly connected components
with a cycle, however these are listed. -/
theorem linearize_reports_first_cycle (built : g.Built)
    (failed : g.linearize target = .error (.importCycle cycle)) :
    cycle ≠ [] ∧ (∃ m, g.FirstOnCycle m) ∧
    (∀ m, g.FirstOnCycle m → ∀ v, v ∈ cycle ↔
      v = m ∨ TransGen g.Edge m v ∧ TransGen g.Edge v m) ∧
    cycle.Nodup ∧ cycle.Pairwise (fun a b => g.rank a < g.rank b) ∧
    ∀ components, Components g.links g.names.length components →
      (leastComponent g.links components).filterMap (g.names[·]?) = cycle := by
  have wellFormed := built.wellFormed
  obtain rfl : cycle = g.firstCycle := Error.importCycle.inj (linearize_error failed)
  obtain ⟨file, cyclic⟩ := exists_cyclic_of_error wellFormed failed
  obtain ⟨m, first⟩ := exists_firstOnCycle cyclic
  have sorted : g.firstCycle.Pairwise (fun a b => g.rank a < g.rank b) := by
    rw [← List.pairwise_map (f := g.rank), map_rank_firstCycle first wellFormed]
    exact sorted_cycleThrough _ _ _
  refine ⟨?_, ⟨m, first⟩, ?_, ?_, sorted, ?_⟩
  · exact List.ne_nil_of_mem ((mem_firstCycle first wellFormed).mpr ⟨first.cyclic, first.cyclic⟩)
  · intro m first v
    rw [mem_firstCycle first wellFormed]
    constructor
    · exact .inr
    · rintro (rfl | both)
      · exact ⟨first.cyclic, first.cyclic⟩
      · exact both
  · refine List.Pairwise.imp ?_ sorted
    rintro a _ lower rfl
    exact Nat.lt_irrefl _ lower
  · intro components division
    rw [division.leastComponent_eq wellFormed.closed.links (first.isLeast wellFormed.closed),
      firstCycle_eq first wellFormed.closed]

/-- `B`, `C` and `D` import each other in a circle. `A` leads there, `E` is found among them without
leading back, and `F` imports itself. -/
def circling : ImportGraph := ofAdditions [
  .edge ⟨⟨"A"⟩, ⟨"B"⟩, "./B"⟩, .edge ⟨⟨"B"⟩, ⟨"E"⟩, "./E"⟩, .edge ⟨⟨"B"⟩, ⟨"C"⟩, "./C"⟩,
  .edge ⟨⟨"C"⟩, ⟨"D"⟩, "./D"⟩, .edge ⟨⟨"D"⟩, ⟨"B"⟩, "./B"⟩, .edge ⟨⟨"F"⟩, ⟨"F"⟩, "./F"⟩]

theorem circling_reports_circle : circling.Built ∧
    circling.linearize ⟨"A"⟩ = .error (.importCycle [⟨"B"⟩, ⟨"C"⟩, ⟨"D"⟩]) ∧
    circling.FirstOnCycle ⟨"B"⟩ ∧
    ¬ (TransGen circling.Edge ⟨"B"⟩ ⟨"E"⟩ ∧ TransGen circling.Edge ⟨"E"⟩ ⟨"B"⟩) ∧
    Components circling.links 6 [[2], [4, 3, 1], [0], [5]] ∧
    (leastComponent circling.links [[2], [4, 3, 1], [0], [5]]).filterMap (circling.names[·]?) =
      [⟨"B"⟩, ⟨"C"⟩, ⟨"D"⟩] := by
  have built : circling.Built := ⟨_, rfl⟩
  have failed : circling.linearize ⟨"A"⟩ =
      .error (.importCycle [⟨"B"⟩, ⟨"C"⟩, ⟨"D"⟩]) := by decide
  have components : Components circling.links 6 [[2], [4, 3, 1], [0], [5]] :=
    .of_reachable (by decide) (by decide) (by decide) (by decide) (by decide) (by decide)
  obtain ⟨-, ⟨m, first⟩, members, -, -, least⟩ := linearize_reports_first_cycle built failed
  have firstB : circling.FirstOnCycle ⟨"B"⟩ := by
    have reported : m ∈ [⟨"B"⟩, ⟨"C"⟩, ⟨"D"⟩] := (members m first m).mpr (.inl rfl)
    rcases (members m first ⟨"B"⟩).mp (by decide) with rfl | ⟨out, back⟩
    · exact first
    · -- `B` lies on a cycle too, and of the files reported it was found first
      have lower : circling.rank m ≤ circling.rank ⟨"B"⟩ := first.first _ (back.trans out)
      have lowest : ∀ file ∈ [⟨"B"⟩, ⟨"C"⟩, ⟨"D"⟩],
          circling.rank file ≤ circling.rank ⟨"B"⟩ → file = ⟨"B"⟩ := by decide
      exact lowest m reported lower ▸ first
  have apart : ¬ (TransGen circling.Edge ⟨"B"⟩ ⟨"E"⟩ ∧ TransGen circling.Edge ⟨"E"⟩ ⟨"B"⟩) :=
    fun both => absurd ((members _ firstB ⟨"E"⟩).mpr (.inr both)) (by decide)
  exact ⟨built, failed, firstB, apart, components, least _ components⟩

end Report

end ImportGraph

end ImportFlattening
