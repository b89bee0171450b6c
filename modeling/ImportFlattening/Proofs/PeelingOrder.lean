import ImportFlattening.ImportGraph.Linearize
import ImportFlattening.Proofs.ImportRelation
import Mathlib.Data.List.Induction
import Mathlib.Data.List.Perm.Subperm

/-! # Peeling a graph

A peeling keeps, for each file, the number of edges from files not taken, and takes files that have
none. `Balanced` says so, and every step keeps it. It follows that a graph peeled to the end has no
cycle, and that an order is the one peeled off when it respects the edges and, of two files
without an edge between them, puts first the one of lower rank.
-/

namespace ImportFlattening

open Relation

namespace Peeling

/-- The recorded number of edges to `v`. -/
def degree (p : Peeling) (v : Nat) : Nat := p.degrees.getD v 0

/-- The number of edges that lead to `v` from files not taken. -/
def openLinks (links : List (Nat × Nat)) (taken : List Nat) (v : Nat) : Nat :=
  links.countP fun link => link.2 = v && link.1 ∉ taken

/-- The ready files are those without open edges, greatest rank first. -/
structure ReadyExact (size : Nat) (p : Peeling) : Prop where
  ready : ∀ v, v ∈ p.ready ↔ v < size ∧ v ∉ p.taken ∧ p.degree v = 0
  sorted : p.ready.Pairwise (· > ·)

/-- The state of a peeling between two steps. -/
structure Balanced (links : List (Nat × Nat)) (size : Nat) (p : Peeling) : Prop
    extends ReadyExact size p where
  degrees : ∀ v < size, p.degree v = openLinks links p.taken v
  bounded : ∀ v ∈ p.taken, v < size
  nodup : p.taken.Nodup
  importers : ∀ link ∈ links, link.2 ∈ p.taken →
    link.1 ∈ p.taken ∧ p.taken.idxOf link.2 < p.taken.idxOf link.1

section Discount

variable {size : Nat} {p : Peeling} {u v : Nat} {l vs : List Nat}

theorem mem_insertRank : u ∈ insertRank v l ↔ u = v ∨ u ∈ l := by
  induction l with
  | nil => simp [insertRank]
  | cons x xs ih =>
      unfold insertRank
      split
      · simp
      · simp only [List.mem_cons, ih]
        tauto

theorem sorted_insertRank (sorted : l.Pairwise (· > ·)) (fresh : v ∉ l) :
    (insertRank v l).Pairwise (· > ·) := by
  induction l with
  | nil => simp [insertRank]
  | cons x xs ih =>
      obtain ⟨head, tail⟩ := List.pairwise_cons.mp sorted
      obtain ⟨different, absent⟩ := List.ne_and_not_mem_of_not_mem_cons fresh
      unfold insertRank
      split
      · rename_i lower
        refine List.pairwise_cons.mpr ⟨?_, sorted⟩
        intro u member
        rcases List.mem_cons.mp member with rfl | member
        · exact lower
        · exact Nat.lt_trans (head u member) lower
      · rename_i notLower
        refine List.pairwise_cons.mpr ⟨?_, ih tail absent⟩
        intro u member
        rcases mem_insertRank.mp member with rfl | member
        · omega
        · exact head u member

theorem degree_discount (p : Peeling) (u v : Nat) :
    (p.discount v).degree u = p.degree u - if v = u then 1 else 0 := by
  simp only [degree, discount, List.getD_eq_getElem?_getD, List.getElem?_set]
  grind

theorem ready_discount (p : Peeling) (v : Nat) :
    (p.discount v).ready = if p.degree v - 1 = 0 then insertRank v p.ready else p.ready := rfl

theorem taken_discount (p : Peeling) (v : Nat) : (p.discount v).taken = p.taken := rfl

theorem ReadyExact.discount (h : ReadyExact size p) (inside : v < size) (untaken : v ∉ p.taken)
    (positive : 0 < p.degree v) : ReadyExact size (p.discount v) := by
  have unready : v ∉ p.ready := by
    intro member
    have := ((h.ready v).mp member).2.2
    omega
  constructor
  · intro u
    rw [degree_discount, ready_discount, taken_discount]
    by_cases same : v = u
    · subst same
      by_cases last : p.degree v - 1 = 0
      · simp [last, mem_insertRank, inside, untaken]
      · simp [last, unready]
    · rw [if_neg same, Nat.sub_zero, ← h.ready u]
      split
      · rw [mem_insertRank, or_iff_right (Ne.symm same)]
      · rfl
  · rw [ready_discount]
    split
    · exact sorted_insertRank h.sorted unready
    · exact h.sorted

theorem taken_foldl_discount (vs : List Nat) (p : Peeling) :
    (vs.foldl discount p).taken = p.taken := by
  induction vs generalizing p with
  | nil => rfl
  | cons v vs ih => exact ih (p.discount v)

theorem degree_foldl_discount (vs : List Nat) (p : Peeling) (u : Nat) :
    (vs.foldl discount p).degree u = p.degree u - vs.count u := by
  induction vs generalizing p with
  | nil => simp
  | cons v vs ih =>
      rw [List.foldl_cons, ih, degree_discount, List.count_cons]
      simp only [beq_iff_eq]
      omega

theorem ReadyExact.foldl_discount (h : ReadyExact size p)
    (inside : ∀ v ∈ vs, v < size ∧ v ∉ p.taken)
    (enough : ∀ v, vs.count v ≤ p.degree v) : ReadyExact size (vs.foldl Peeling.discount p) := by
  induction vs generalizing p with
  | nil => exact h
  | cons v vs ih =>
      obtain ⟨⟨bound, untaken⟩, others⟩ := List.forall_mem_cons.mp inside
      have positive : 0 < p.degree v := by
        have := enough v
        rw [List.count_cons_self] at this
        omega
      refine ih (h.discount bound untaken positive) others ?_
      intro u
      have := enough u
      rw [degree_discount]
      rw [List.count_cons] at this
      simp only [beq_iff_eq] at this
      omega

end Discount

section Links

variable {links : List (Nat × Nat)} {taken : List Nat} {r v : Nat}

theorem mem_successors : v ∈ ImportGraph.successors links r ↔ (r, v) ∈ links := by
  simp only [ImportGraph.successors, List.mem_filterMap]
  constructor
  · rintro ⟨⟨a, b⟩, member, chosen⟩
    grind
  · intro member
    exact ⟨(r, v), member, by simp⟩

/-- Taking a file closes the edges that leave it. -/
theorem openLinks_cons (links : List (Nat × Nat)) (untaken : r ∉ taken) (v : Nat) :
    openLinks links taken v =
      openLinks links (r :: taken) v + (ImportGraph.successors links r).count v := by
  induction links with
  | nil => rfl
  | cons link links ih =>
      obtain ⟨a, b⟩ := link
      simp only [openLinks, ImportGraph.successors, List.countP_cons, List.filterMap_cons] at ih ⊢
      grind

theorem openLinks_eq_zero_iff :
    openLinks links taken v = 0 ↔ ∀ a, (a, v) ∈ links → a ∈ taken := by
  rw [openLinks, List.countP_eq_zero]
  constructor
  · intro closed a member
    by_contra untaken
    exact closed (a, v) member (by simp [untaken])
  · rintro closed ⟨a, b⟩ member counted
    simp only [Bool.and_eq_true, decide_eq_true_eq] at counted
    obtain ⟨rfl, untaken⟩ := counted
    exact untaken (closed a member)

end Links

section Run

variable {links : List (Nat × Nat)} {size r : Nat} {p q : Peeling} {rest done remaining : List Nat}

theorem step_cases (step : p.step links = some q) : ∃ r rest, p.ready = r :: rest ∧
    q = (ImportGraph.successors links r).foldl discount
      { p with ready := rest, taken := r :: p.taken } := by
  unfold Peeling.step at step
  split at step
  · simp at step
  · rename_i r rest ready
    exact ⟨r, rest, ready, (Option.some.inj step).symm⟩

theorem Balanced.closed (h : Balanced links size p) (ready : p.ready = r :: rest) :
    r < size ∧ r ∉ p.taken ∧ ∀ a, (a, r) ∈ links → a ∈ p.taken := by
  obtain ⟨bound, untaken, closed⟩ := (h.ready r).mp (by simp [ready])
  rw [h.degrees r bound, openLinks_eq_zero_iff] at closed
  exact ⟨bound, untaken, closed⟩

/-- A file that `r` imports is not taken, since its importers would have been taken before it. -/
theorem Balanced.later (h : Balanced links size p)
    (inside : ∀ link ∈ links, link.1 < size ∧ link.2 < size) (ready : p.ready = r :: rest) :
    ∀ v ∈ ImportGraph.successors links r, v < size ∧ v ∉ r :: p.taken := by
  obtain ⟨-, untaken, closed⟩ := h.closed ready
  intro v member
  have link := mem_successors.mp member
  refine ⟨(inside _ link).2, ?_⟩
  intro taken
  rcases List.mem_cons.mp taken with rfl | taken
  · exact untaken (closed _ link)
  · exact untaken (h.importers _ link taken).1

theorem Balanced.take (h : Balanced links size p) (ready : p.ready = r :: rest) :
    ReadyExact size { p with ready := rest, taken := r :: p.taken } := by
  obtain ⟨below, sorted⟩ := List.pairwise_cons.mp (ready ▸ h.sorted)
  refine ⟨fun v => ?_, sorted⟩
  have old := h.ready v
  have lower := below v
  rw [ready, List.mem_cons] at old
  change v ∈ rest ↔ v < size ∧ v ∉ r :: p.taken ∧ p.degree v = 0
  rw [List.mem_cons]
  grind

/-- In the middle of a step, in whichever order the edges that leave the file taken are gone through,
the edges to the dependees `remaining` are counted still. -/
theorem Balanced.discounting (h : Balanced links size p)
    (inside : ∀ link ∈ links, link.1 < size ∧ link.2 < size) (ready : p.ready = r :: rest)
    (order : (done ++ remaining).Perm (ImportGraph.successors links r)) :
    let q := done.foldl discount { p with ready := rest, taken := r :: p.taken }
    ReadyExact size q ∧ ∀ v < size, q.degree v = openLinks links q.taken v + remaining.count v := by
  obtain ⟨-, untaken, -⟩ := h.closed ready
  have later := h.later inside ready
  have counts : ∀ v, (ImportGraph.successors links r).count v = done.count v + remaining.count v :=
    fun v => (order.count_eq v).symm.trans List.count_append
  have opened : ∀ v < size, p.degree v =
      openLinks links (r :: p.taken) v + (done.count v + remaining.count v) := by
    intro v bound
    rw [h.degrees v bound, ← counts v]
    exact openLinks_cons links untaken v
  have among : ∀ v ∈ done, v < size ∧ v ∉ r :: p.taken :=
    fun v member => later v (order.subset (List.mem_append_left _ member))
  have enough : ∀ v, done.count v ≤ p.degree v := by
    intro v
    by_cases member : v ∈ done
    · rw [opened v (among v member).1]
      omega
    · rw [List.count_eq_zero_of_not_mem member]
      exact Nat.zero_le _
  refine ⟨(h.take ready).foldl_discount among enough, ?_⟩
  intro v bound
  rw [degree_foldl_discount, taken_foldl_discount]
  change p.degree v - _ = openLinks links (r :: p.taken) v + _
  rw [opened v bound]
  omega

theorem Balanced.step (h : Balanced links size p)
    (inside : ∀ link ∈ links, link.1 < size ∧ link.2 < size) (step : p.step links = some q) :
    Balanced links size q := by
  obtain ⟨r, rest, ready, rfl⟩ := step_cases step
  obtain ⟨bound, untaken, closed⟩ := h.closed ready
  obtain ⟨exact, degrees⟩ := h.discounting inside ready (.of_eq (List.append_nil _))
  refine { exact with degrees := degrees, bounded := ?_, nodup := ?_, importers := ?_ }
  · rw [taken_foldl_discount]
    exact List.forall_mem_cons.mpr ⟨bound, h.bounded⟩
  · rw [taken_foldl_discount]
    exact List.nodup_cons.mpr ⟨untaken, h.nodup⟩
  · rw [taken_foldl_discount]
    rintro ⟨a, b⟩ link taken
    rcases List.mem_cons.mp taken with rfl | taken
    · have importer := closed a link
      have different : b ≠ a := fun same => untaken (same ▸ importer)
      refine ⟨List.mem_cons_of_mem _ importer, ?_⟩
      rw [List.idxOf_cons_self, List.idxOf_cons_ne _ different]
      exact Nat.succ_pos _
    · obtain ⟨importer, lower⟩ := h.importers _ link taken
      have differentDependee : r ≠ b := fun same => untaken (same ▸ taken)
      have differentImporter : r ≠ a := fun same => untaken (same ▸ importer)
      refine ⟨List.mem_cons_of_mem _ importer, ?_⟩
      rw [List.idxOf_cons_ne _ differentDependee, List.idxOf_cons_ne _ differentImporter]
      exact Nat.succ_lt_succ lower

theorem Balanced.run (h : Balanced links size p)
    (inside : ∀ link ∈ links, link.1 < size ∧ link.2 < size) (count : Nat) :
    Balanced links size (p.run links count) := by
  induction count generalizing p with
  | zero => exact h
  | succ count ih =>
      unfold Peeling.run
      split
      · exact h
      · rename_i next step
        exact ih (h.step inside step)

theorem Balanced.start (links : List (Nat × Nat)) (size : Nat) :
    Balanced links size (.start links size) := by
  have degrees : ∀ v < size, (Peeling.start links size).degree v = openLinks links [] v := by
    intro v inside
    simp [Peeling.start, degree, openLinks, inside]
  refine
    { ready := ?_
      sorted := ?_
      degrees := degrees
      bounded := by simp [Peeling.start]
      nodup := by simp [Peeling.start]
      importers := by simp [Peeling.start] }
  · intro v
    simp only [Peeling.start, List.mem_filter, List.mem_reverse, List.mem_range]
    simp [degree]
  · exact (List.pairwise_reverse.mpr List.pairwise_lt_range).filter _

theorem Balanced.taken_subperm (h : Balanced links size p) : p.taken.Subperm (List.range size) :=
  List.subperm_of_subset h.nodup fun v taken => List.mem_range.mpr (h.bounded v taken)

theorem Balanced.length_taken_le (h : Balanced links size p) : p.taken.length ≤ size := by
  simpa using h.taken_subperm.length_le

theorem Balanced.taken_perm (h : Balanced links size p) (complete : size ≤ p.taken.length) :
    p.taken.Perm (List.range size) :=
  h.taken_subperm.perm_of_length_le (by simpa using complete)

end Run

/-- An order in which no file stands after a file that imports it, and each file is of higher rank
than the files before it, but for those that a file between them imports. -/
structure Peels (links : List (Nat × Nat)) (size : Nat) (order : List Nat) : Prop where
  perm : order.Perm (List.range size)
  importers : InOrder (fun before v => ∀ a, (a, v) ∈ links → a ∉ before ++ [v]) order
  nested : InOrder (fun before u => ∀ v ∈ before, v < u ∨
    ∃ a ∈ before ++ [u], (a, v) ∈ links) order

namespace Peels

variable {links : List (Nat × Nat)} {size : Nat} {p : Peeling} {order before : List Nat} {u : Nat}

theorem mem_iff (peels : Peels links size order) {v : Nat} : v ∈ order ↔ v < size := by
  rw [peels.perm.mem_iff, List.mem_range]

/-- The last file not taken is the first of the ready ones. -/
theorem ready_head (peels : Peels links size order) (h : Balanced links size p)
    (inside : ∀ link ∈ links, link.1 < size ∧ link.2 < size)
    (cut : order = before ++ u :: p.taken) : ∃ rest, p.ready = u :: rest := by
  have nodup : (before ++ u :: p.taken).Nodup := cut ▸ peels.perm.nodup_iff.mpr List.nodup_range
  have mem_order : ∀ v, v < size ↔ v ∈ before ++ [u] ∨ v ∈ p.taken := by
    intro v
    rw [← peels.mem_iff, cut]
    simp [or_assoc]
  have apart : ∀ v ∈ before ++ [u], v ∉ p.taken := by
    rw [List.append_cons] at nodup
    exact fun v member taken => (List.nodup_append.mp nodup).2.2 v member v taken rfl
  have ready : u ∈ p.ready := by
    have bound : u < size := (mem_order u).mpr (.inl (by simp))
    rw [h.ready, h.degrees u bound, openLinks_eq_zero_iff]
    refine ⟨bound, apart u (by simp), fun a link => ?_⟩
    exact ((mem_order a).mp (inside _ link).1).resolve_left (peels.importers _ _ _ cut a link)
  have greatest : ∀ v ∈ p.ready, v ≤ u := by
    intro v member
    obtain ⟨bound, untaken, closed⟩ := (h.ready v).mp member
    rw [h.degrees v bound, openLinks_eq_zero_iff] at closed
    rcases List.mem_append.mp (((mem_order v).mp bound).resolve_right untaken) with earlier | same
    · rcases peels.nested _ _ _ cut v earlier with lower | ⟨a, open_, link⟩
      · exact Nat.le_of_lt lower
      · exact absurd (closed a link) (apart a open_)
    · exact Nat.le_of_eq (List.mem_singleton.mp same)
  -- a decreasing list begins with its greatest member
  cases shape : p.ready with
  | nil => simp [shape] at ready
  | cons r rest =>
      rw [shape] at ready greatest
      have below := (List.pairwise_cons.mp (shape ▸ h.sorted)).1
      rcases List.mem_cons.mp ready with rfl | tail
      · exact ⟨rest, rfl⟩
      · have lower := below u tail
        have upper := greatest r List.mem_cons_self
        omega

theorem run_taken (peels : Peels links size order)
    (inside : ∀ link ∈ links, link.1 < size ∧ link.2 < size) (before : List Nat)
    (h : Balanced links size p) (cut : order = before ++ p.taken) :
    (p.run links before.length).taken = order := by
  induction before using List.reverseRecOn generalizing p with
  | nil => exact cut.symm
  | append_singleton before u ih =>
      rw [List.append_assoc, List.singleton_append] at cut
      obtain ⟨rest, ready⟩ := peels.ready_head h inside cut
      rw [List.length_append, List.length_singleton]
      unfold Peeling.run
      cases step : p.step links with
      | none => simp [Peeling.step, ready] at step
      | some next =>
          obtain ⟨r, rest', ready', rfl⟩ := step_cases step
          obtain ⟨rfl, rfl⟩ := List.cons.inj (ready ▸ ready')
          refine ih (h.step inside step) ?_
          rw [taken_foldl_discount]
          exact cut

end Peels

end Peeling

namespace ImportGraph

variable {g : ImportGraph} {target : SourceName} {order : List SourceName}

/-- Both ends of every edge are files of the graph. -/
def Closed (g : ImportGraph) : Prop :=
  ∀ e ∈ g.edges, e.importer ∈ g.names ∧ e.dependee ∈ g.names

theorem Closed.links (closed : g.Closed) :
    ∀ link ∈ g.links, link.1 < g.names.length ∧ link.2 < g.names.length := by
  rintro ⟨u, v⟩ link
  obtain ⟨e, member, rfl, rfl⟩ := mem_links.mp link
  obtain ⟨importer, dependee⟩ := closed e member
  exact ⟨List.idxOf_lt_length_of_mem importer, List.idxOf_lt_length_of_mem dependee⟩

theorem hasEdges_of_mem {e : Import} (member : e ∈ g.edges) : g.hasEdges := by
  simp [hasEdges, List.ne_nil_of_mem member]

/-- A graph that can be put in order has no cycle. -/
theorem linearize_acyclic (closed : g.Closed) (linear : g.linearize target = .ok order)
    (file : SourceName) : ¬ TransGen g.Edge file file := by
  unfold linearize at linear
  split at linear
  · simp only at linear
    split at linear
    · simp at linear
    · rename_i complete
      have balanced := (Peeling.Balanced.start g.links g.names.length).run closed.links
        g.names.length
      generalize (Peeling.start g.links g.names.length).run g.links g.names.length = p
        at complete balanced
      have all : ∀ v < g.names.length, v ∈ p.taken := by
        intro v bound
        exact (balanced.taken_perm (Nat.le_of_not_lt complete)).mem_iff.mpr (List.mem_range.mpr bound)
      refine acyclic_of_rank (fun file => p.taken.idxOf (g.rank file)) ?_ file
      intro a b edge
      have link := link_of_edge edge
      exact (balanced.importers _ link (all _ (closed.links _ link).2)).2
  · rename_i none
    intro path
    obtain ⟨_, ⟨e, member, -⟩, -⟩ := TransGen.head'_iff.mp path
    exact none (hasEdges_of_mem member)

theorem linearize_error {e : Error} (failed : g.linearize target = .error e) :
    e = .importCycle g.firstCycle := by
  unfold linearize at failed
  split at failed
  · simp only at failed
    split at failed
    · exact (Except.error.inj failed).symm
    · cases failed
  · cases failed

theorem linearize_cyclic (closed : g.Closed) {file : SourceName}
    (cycle : TransGen g.Edge file file) :
    g.linearize target = .error (.importCycle g.firstCycle) := by
  cases linear : g.linearize target with
  | error e => rw [linearize_error linear]
  | ok order => exact absurd cycle (linearize_acyclic closed linear file)

theorem filterMap_map_rank (inside : order ⊆ g.names) :
    (order.map g.rank).filterMap (g.names[·]?) = order := by
  rw [List.filterMap_map]
  conv_rhs => rw [← List.filterMap_some (l := order)]
  refine List.filterMap_congr fun file member => ?_
  exact List.getElem?_idxOf (inside member)

theorem linearize_of_peels (closed : g.Closed) (edges : g.hasEdges) (inside : order ⊆ g.names)
    (peels : Peeling.Peels g.links g.names.length (order.map g.rank)) :
    g.linearize target = .ok order := by
  have size : (order.map g.rank).length = g.names.length := by
    simpa using peels.perm.length_eq
  have taken := peels.run_taken closed.links (order.map g.rank) (.start _ _)
    (by simp [Peeling.start])
  rw [size] at taken
  simp only [linearize, edges, if_true, taken, size, Nat.lt_irrefl, if_false,
    filterMap_map_rank inside]

end ImportGraph

end ImportFlattening
