import ImportFlattening.Proofs.GreatestOrder
import Mathlib.Data.List.Sort

/-! # The counts of a peeling

A peeling counts edges down one at a time, and a file becomes ready in the middle of that. `Counts`
says what holds before every single count: each record is the number of open edges and of those that
are about to be discounted, so no record is ever counted below zero. It does not matter in which
order the edges of a file are gone through (`Peeling.Balanced.step_eq`).
-/

namespace ImportFlattening

namespace Peeling

section Records

variable {links : List (Nat × Nat)} {size r : Nat} {p q : Peeling} {rest order : List Nat}

theorem length_degrees_foldl_discount (vs : List Nat) (p : Peeling) :
    (vs.foldl discount p).degrees.length = p.degrees.length := by
  induction vs generalizing p with
  | nil => rfl
  | cons v vs ih =>
      rw [List.foldl_cons, ih]
      exact List.length_set

theorem length_degrees_run (links : List (Nat × Nat)) (count : Nat) (p : Peeling) :
    (p.run links count).degrees.length = p.degrees.length := by
  induction count generalizing p with
  | zero => rfl
  | succ count ih =>
      cases step : p.step links with
      | none => rw [run_succ_none step]
      | some q =>
          obtain ⟨r, rest, -, rfl⟩ := step_cases step
          rw [run_succ_some step, ih, length_degrees_foldl_discount]

/-- A peeling is settled by what it has taken and by its records. -/
theorem ReadyExact.ext (h : ReadyExact size p) (h' : ReadyExact size q) (taken : p.taken = q.taken)
    (length : p.degrees.length = q.degrees.length) (degrees : ∀ v, p.degree v = q.degree v) :
    p = q := by
  have records : p.degrees = q.degrees := by
    refine List.ext_getElem length fun v bound bound' => ?_
    simpa [degree, bound, bound'] using degrees v
  have members : ∀ v, v ∈ p.ready ↔ v ∈ q.ready := by
    intro v
    rw [h.ready, h'.ready, taken, degrees]
  have unrepeated : p.ready.Nodup := h.sorted.imp Nat.ne_of_gt
  have unrepeated' : q.ready.Nodup := h'.sorted.imp Nat.ne_of_gt
  have perm : p.ready.Perm q.ready := (List.perm_ext_iff_of_nodup unrepeated unrepeated').mpr members
  have ready : p.ready = q.ready :=
    perm.eq_of_pairwise' (h.sorted.imp Nat.le_of_lt) (h'.sorted.imp Nat.le_of_lt)
  cases p
  cases q
  simp_all

/-- A step leads to the same peeling in whichever order it goes through the edges. -/
theorem Balanced.step_eq (h : Balanced links size p)
    (inside : ∀ link ∈ links, link.1 < size ∧ link.2 < size) (ready : p.ready = r :: rest)
    (perm : order.Perm (ImportGraph.successors links r)) :
    p.step links =
      some (order.foldl discount { p with ready := rest, taken := r :: p.taken }) := by
  have exact {vs : List Nat} (all : vs.Perm (ImportGraph.successors links r)) :
      ReadyExact size (vs.foldl discount { p with ready := rest, taken := r :: p.taken }) := by
    rw [← List.append_nil vs] at all
    exact (h.discounting inside ready all).1
  simp only [Peeling.step, ready]
  refine congrArg some ((exact (.refl _)).ext (exact perm) ?_ ?_ ?_)
  · rw [taken_foldl_discount, taken_foldl_discount]
  · rw [length_degrees_foldl_discount, length_degrees_foldl_discount]
  · intro v
    rw [degree_foldl_discount, degree_foldl_discount, perm.count_eq]

/-- As many steps as there are files leave nothing ready. -/
theorem ready_run_eq_nil (inside : ∀ link ∈ links, link.1 < size ∧ link.2 < size) {count : Nat}
    (enough : size ≤ count) : ((start links size).run links count).ready = [] := by
  have balanced := (Balanced.start links size).run inside count
  rcases run_ends links count (start links size) with ended | length
  · exact ended
  · -- every file has been taken, and what is ready has not
    have complete : size ≤ ((start links size).run links count).taken.length := by omega
    refine List.eq_nil_iff_forall_not_mem.mpr fun v member => ?_
    obtain ⟨bound, untaken, -⟩ := (balanced.ready v).mp member
    exact untaken ((balanced.taken_perm complete).mem_iff.mpr (List.mem_range.mpr bound))

end Records

end Peeling

namespace ImportGraph

/-- The number of edges to `file` from files that have not been taken. -/
def openEdges (g : ImportGraph) (taken : List Nat) (file : SourceName) : Nat :=
  g.edges.countP fun e => e.dependee = file && g.rank e.importer ∉ taken

/-- What a peeling of the graph has recorded when the edges that lead from the file taken last to the
files of rank `remaining` have not been discounted. -/
structure Counts (g : ImportGraph) (remaining : List Nat) (p : Peeling) : Prop where
  recorded : p.degrees.length = g.names.length
  degrees : ∀ file ∈ g.names,
    p.degree (g.rank file) = g.openEdges p.taken file + remaining.count (g.rank file)
  ready : ∀ v, v ∈ p.ready ↔ v < g.names.length ∧ v ∉ p.taken ∧ p.degree v = 0
  unrepeated : p.ready.Nodup
  takenOnce : p.taken.Nodup
  bounded : ∀ v ∈ p.taken, v < g.names.length

section Counts

variable {g : ImportGraph} {p : Peeling} {remaining done rest : List Nat} {r : Nat}
  {file : SourceName}

theorem openLinks_links (known : file ∈ g.names) (taken : List Nat) :
    Peeling.openLinks g.links taken (g.rank file) = g.openEdges taken file := by
  rw [Peeling.openLinks, links, List.countP_map, openEdges]
  congr 1
  funext e
  have same : g.rank e.dependee = g.rank file ↔ e.dependee = file :=
    ⟨fun equal => (rank_inj known equal.symm).symm, fun equal => congrArg g.rank equal⟩
  simp only [Function.comp_apply]
  change (decide (g.rank e.dependee = g.rank file) && decide (g.rank e.importer ∉ taken)) = _
  simp only [same]

theorem Counts.of_balanced (h : Peeling.Balanced g.links g.names.length p)
    (recorded : p.degrees.length = g.names.length) : g.Counts [] p where
  recorded := recorded
  degrees := by
    intro file known
    have bound : g.rank file < g.names.length := List.idxOf_lt_length_of_mem known
    rw [h.degrees _ bound]
    exact openLinks_links known p.taken
  ready := h.ready
  unrepeated := h.sorted.imp Nat.ne_of_gt
  takenOnce := h.nodup
  bounded := h.bounded

theorem Counts.discounting (h : Peeling.Balanced g.links g.names.length p)
    (recorded : p.degrees.length = g.names.length) (closed : g.Closed)
    (ready : p.ready = r :: rest)
    (order : (done ++ remaining).Perm (successors g.links r)) :
    g.Counts remaining
      (done.foldl Peeling.discount { p with ready := rest, taken := r :: p.taken }) := by
  obtain ⟨exact, degrees⟩ := h.discounting closed.links ready order
  obtain ⟨bound, untaken, -⟩ := h.closed ready
  refine ⟨?_, ?_, exact.ready, exact.sorted.imp Nat.ne_of_gt, ?_, ?_⟩
  · rw [Peeling.length_degrees_foldl_discount]
    exact recorded
  · intro file known
    have bound : g.rank file < g.names.length := List.idxOf_lt_length_of_mem known
    rw [degrees _ bound, openLinks_links known]
  · rw [Peeling.taken_foldl_discount]
    exact List.nodup_cons.mpr ⟨untaken, h.nodup⟩
  · rw [Peeling.taken_foldl_discount]
    exact List.forall_mem_cons.mpr ⟨bound, h.bounded⟩

/-- A file whose edge is about to be discounted has at least that edge on record. -/
theorem Counts.positive (counts : g.Counts remaining p) {v : Nat} (member : v ∈ remaining)
    (bound : v < g.names.length) (nodup : g.names.Nodup) : 0 < p.degree v := by
  have recorded := counts.degrees _ (List.getElem_mem bound)
  rw [rank, nodup.idxOf_getElem v bound] at recorded
  have occurs := List.count_pos_iff.mpr member
  omega

end Counts

/-- However a graph has been made and however many rounds have been run, each file has the number of
its open edges on record, what is ready is what has no open edge and has not been taken, and nothing
is taken twice. In the middle of a round the edges that are still to be discounted count as open, so
that no record falls below zero, whatever the order in which they are gone through; the round leads
to the same peeling in any order. As many rounds as there are files leave nothing ready. -/
theorem peeling_counts_open_edges (additions : List Addition) (count : Nat) :
    let g := ofAdditions additions
    let p := (Peeling.start g.links g.names.length).run g.links count
    g.Counts [] p ∧ p.taken.length ≤ g.names.length ∧
    (∀ r rest, p.ready = r :: rest → r < g.names.length ∧
      ∀ done remaining, (done ++ remaining).Perm (successors g.links r) →
        let q := done.foldl Peeling.discount { p with ready := rest, taken := r :: p.taken }
        g.Counts remaining q ∧ (∀ v ∈ remaining, v < g.names.length ∧ 0 < q.degree v) ∧
        (remaining = [] → p.step g.links = some q)) ∧
    (g.names.length ≤ count → p.ready = []) := by
  intro g p
  have wellFormed : g.WellFormed := Built.wellFormed ⟨additions, rfl⟩
  have inside := wellFormed.closed.links
  have balanced : Peeling.Balanced g.links g.names.length p :=
    (Peeling.Balanced.start _ _).run inside count
  have recorded : p.degrees.length = g.names.length := by
    rw [Peeling.length_degrees_run]
    simp [Peeling.start]
  refine ⟨.of_balanced balanced recorded, balanced.length_taken_le, ?_, ?_⟩
  · intro r rest ready
    refine ⟨(balanced.closed ready).1, ?_⟩
    intro done remaining order q
    have counts : g.Counts remaining q :=
      .discounting balanced recorded wellFormed.closed ready order
    refine ⟨counts, ?_, ?_⟩
    · intro v member
      have bound := (balanced.later inside ready v
        (order.subset (List.mem_append_right _ member))).1
      exact ⟨bound, counts.positive member bound wellFormed.nodup⟩
    · rintro rfl
      exact balanced.step_eq inside ready (List.append_nil done ▸ order)
  · exact Peeling.ready_run_eq_nil inside

/-- `A` imports `B` twice, and `C` imports both `B` and itself. -/
def doubling : List Addition := [
  .edge ⟨⟨"A"⟩, ⟨"B"⟩, "./B"⟩, .edge ⟨⟨"A"⟩, ⟨"C"⟩, "./C"⟩, .edge ⟨⟨"A"⟩, ⟨"B"⟩, "B"⟩,
  .edge ⟨⟨"C"⟩, ⟨"B"⟩, "./B"⟩, .edge ⟨⟨"C"⟩, ⟨"C"⟩, "./C"⟩]

/-- With `A` taken and one of its edges to `B` discounted, the other and the one from `C` are on
record. Nothing is ready after that, though only one file of three has been taken. -/
theorem doubling_counts_open_edges :
    let g := ofAdditions doubling
    let p := Peeling.start g.links g.names.length
    p.ready = [0] ∧ ([1, 2] ++ [1]).Perm (successors g.links 0) ∧
    (p.run g.links 3).ready = [] ∧ (p.run g.links 3).taken = [0] ∧
    let q := [1, 2].foldl Peeling.discount { p with ready := [], taken := [0] }
    g.Counts [1] q ∧ 0 < q.degree 1 ∧ q.degree 1 = 2 := by
  intro g p
  have ready : p.ready = [0] := by decide
  have order : ([1, 2] ++ [1]).Perm (successors g.links 0) := by decide
  obtain ⟨-, -, rounds, -⟩ := peeling_counts_open_edges doubling 0
  obtain ⟨-, -, -, ended⟩ := peeling_counts_open_edges doubling 3
  obtain ⟨counts, positive, -⟩ := (rounds 0 [] ready).2 [1, 2] [1] order
  exact ⟨ready, order, ended (by decide), by decide, counts, (positive 1 (by decide)).2, by decide⟩

end ImportGraph

end ImportFlattening
