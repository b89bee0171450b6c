import ImportFlattening.Proofs.PeelingOrder

/-! # What links lead to

`reachable` searches a graph in rounds, each of which follows the links of what the round before has
found. Every round but the last finds something new and there is only so much to find, so the search
ends with all that the links lead to (`mem_reachable_iff`). The cycle that is reported is therefore a
matter of which links there are, not of their order or number.
-/

namespace ImportFlattening

open Relation

namespace ImportGraph

/-- A link leads from `u` to `v`. -/
def Linked (links : List (Nat × Nat)) (u v : Nat) : Prop := (u, v) ∈ links

/-- What the links of `frontier` lead to and is not among `seen`. -/
def unseenAfter (links : List (Nat × Nat)) (seen frontier : List Nat) : List Nat :=
  ((frontier.flatMap (successors links)).filter (· ∉ seen)).eraseDups

/-- The state of a search between two rounds: every link of what has been seen leads to what has been
seen, unless it starts from the newest part. -/
structure Searching (links : List (Nat × Nat)) (size : Nat) (seen frontier : List Nat) : Prop where
  nodup : seen.Nodup
  bounded : ∀ v ∈ seen, v < size
  newest : frontier ⊆ seen
  followed : ∀ u ∈ seen, u ∉ frontier → ∀ v, Linked links u v → v ∈ seen

section Search

variable {links : List (Nat × Nat)} {size rounds u v : Nat} {seen frontier : List Nat}

theorem nodup_eraseDups (l : List Nat) : l.eraseDups.Nodup := by
  cases l with
  | nil => simp
  | cons x xs =>
      rw [List.eraseDups_cons, List.nodup_cons]
      exact ⟨by simp, nodup_eraseDups (xs.filter fun y => !y == x)⟩
termination_by l.length
decreasing_by exact Nat.lt_succ_of_le (List.length_filter_le _ _)

theorem mem_unseenAfter :
    v ∈ unseenAfter links seen frontier ↔ (∃ u ∈ frontier, Linked links u v) ∧ v ∉ seen := by
  simp [unseenAfter, Linked, Peeling.mem_successors]

theorem spread_succ (links : List (Nat × Nat)) (rounds : Nat) (seen frontier : List Nat) :
    spread links (rounds + 1) seen frontier =
      if (unseenAfter links seen frontier).isEmpty then seen
      else spread links rounds (seen ++ unseenAfter links seen frontier)
        (unseenAfter links seen frontier) := rfl

theorem Searching.length_le (h : Searching links size seen frontier) : seen.length ≤ size := by
  have inside : seen ⊆ List.range size := fun v member => List.mem_range.mpr (h.bounded v member)
  have fewer := (List.subperm_of_subset h.nodup inside).length_le
  rwa [List.length_range] at fewer

theorem Searching.round (h : Searching links size seen frontier)
    (inside : ∀ link ∈ links, link.1 < size ∧ link.2 < size) :
    Searching links size (seen ++ unseenAfter links seen frontier)
      (unseenAfter links seen frontier) where
  nodup := by
    refine List.nodup_append.mpr ⟨h.nodup, nodup_eraseDups _, ?_⟩
    rintro v old _ new rfl
    exact (mem_unseenAfter.mp new).2 old
  bounded := by
    intro v member
    rcases List.mem_append.mp member with old | new
    · exact h.bounded v old
    · obtain ⟨⟨u, -, link⟩, -⟩ := mem_unseenAfter.mp new
      exact (inside _ link).2
  newest := List.subset_append_right _ _
  followed := by
    intro u member notNew v link
    have old : u ∈ seen := (List.mem_append.mp member).resolve_right notNew
    by_cases seenBefore : v ∈ seen
    · exact List.mem_append_left _ seenBefore
    · -- the link leads out of what was seen, so it starts from the newest part of it
      have recent : u ∈ frontier := by
        by_contra earlier
        exact seenBefore (h.followed u old earlier v link)
      exact List.mem_append_right _ (mem_unseenAfter.mpr ⟨⟨u, recent, link⟩, seenBefore⟩)

theorem subset_spread (links : List (Nat × Nat)) (rounds : Nat) (seen frontier : List Nat) :
    seen ⊆ spread links rounds seen frontier := by
  induction rounds generalizing seen frontier with
  | zero => exact List.Subset.refl _
  | succ rounds ih =>
      rw [spread_succ]
      split
      · exact List.Subset.refl _
      · exact List.Subset.trans (List.subset_append_left _ _) (ih _ _)

theorem reached_of_mem_spread (newest : frontier ⊆ seen)
    (member : v ∈ spread links rounds seen frontier) :
    ∃ u ∈ seen, ReflTransGen (Linked links) u v := by
  induction rounds generalizing seen frontier with
  | zero => exact ⟨v, member, .refl⟩
  | succ rounds ih =>
      rw [spread_succ] at member
      split at member
      · exact ⟨v, member, .refl⟩
      · obtain ⟨u, found, path⟩ := ih (List.subset_append_right _ _) member
        rcases List.mem_append.mp found with old | new
        · exact ⟨u, old, path⟩
        · obtain ⟨⟨w, recent, link⟩, -⟩ := mem_unseenAfter.mp new
          exact ⟨w, newest recent, .head link path⟩

/-- A search with enough rounds left ends with a set that no link leads out of. -/
theorem Searching.spread_closed (h : Searching links size seen frontier)
    (inside : ∀ link ∈ links, link.1 < size ∧ link.2 < size)
    (enough : size < rounds + seen.length) (member : u ∈ spread links rounds seen frontier)
    (link : Linked links u v) : v ∈ spread links rounds seen frontier := by
  induction rounds generalizing seen frontier with
  | zero =>
      have := h.length_le
      omega
  | succ rounds ih =>
      rw [spread_succ] at member ⊢
      split at member
      case isTrue finished =>
        rw [if_pos finished]
        rw [List.isEmpty_iff] at finished
        by_contra unseen
        have recent : u ∈ frontier := by
          by_contra earlier
          exact unseen (h.followed u member earlier v link)
        have fresh := mem_unseenAfter.mpr ⟨⟨u, recent, link⟩, unseen⟩
        rw [finished] at fresh
        cases fresh
      case isFalse unfinished =>
        rw [if_neg unfinished]
        apply ih (h.round inside) _ member
        have growth := List.length_pos_iff.mpr (mt List.isEmpty_iff.mpr unfinished)
        rw [List.length_append]
        omega

theorem mem_reachable_iff (inside : ∀ link ∈ links, link.1 < size ∧ link.2 < size) :
    v ∈ reachable links size u ↔ TransGen (Linked links) u v := by
  have first : ∀ w, w ∈ (successors links u).eraseDups ↔ Linked links u w := by
    intro w
    rw [List.mem_eraseDups, Peeling.mem_successors, Linked]
  have start : Searching links size (successors links u).eraseDups
      (successors links u).eraseDups := by
    refine ⟨nodup_eraseDups _, ?_, List.Subset.refl _, fun w member other => absurd member other⟩
    intro w member
    exact (inside _ ((first w).mp member)).2
  constructor
  · intro member
    obtain ⟨w, found, path⟩ := reached_of_mem_spread (List.Subset.refl _) member
    exact .head' ((first w).mp found) path
  · intro path
    obtain ⟨w, link, -⟩ := TransGen.head'_iff.mp path
    have found := (first w).mpr link
    have enough : size < size + (successors links u).eraseDups.length :=
      Nat.lt_add_of_pos_right (List.length_pos_of_mem found)
    induction path with
    | single link => exact subset_spread links size _ _ ((first _).mpr link)
    | tail _ link ih => exact start.spread_closed inside enough ih link

end Search

section Report

variable {g h : ImportGraph}

theorem mem_links_iff_edge {u v : Nat} :
    (u, v) ∈ g.links ↔ ∃ a b, g.Edge a b ∧ g.rank a = u ∧ g.rank b = v := by
  rw [mem_links]
  constructor
  · rintro ⟨e, member, importer, dependee⟩
    exact ⟨_, _, ⟨e, member, rfl, rfl⟩, importer, dependee⟩
  · rintro ⟨_, _, ⟨e, member, rfl, rfl⟩, importer, dependee⟩
    exact ⟨e, member, importer, dependee⟩

theorem mem_links_congr (names : g.names = h.names) (edges : ∀ a b, g.Edge a b ↔ h.Edge a b)
    (u v : Nat) : (u, v) ∈ g.links ↔ (u, v) ∈ h.links := by
  simp only [mem_links_iff_edge, rank, names, edges]

theorem reachable_congr {links links' : List (Nat × Nat)} {size : Nat}
    (inside : ∀ link ∈ links, link.1 < size ∧ link.2 < size)
    (same : ∀ u v, (u, v) ∈ links ↔ (u, v) ∈ links') (u v : Nat) :
    v ∈ reachable links size u ↔ v ∈ reachable links' size u := by
  have inside' : ∀ link ∈ links', link.1 < size ∧ link.2 < size :=
    fun link member => inside link ((same link.1 link.2).mpr member)
  have linked : Linked links = Linked links' := by
    funext a b
    exact propext (same a b)
  rw [mem_reachable_iff inside, mem_reachable_iff inside', linked]

theorem inside_swap {links : List (Nat × Nat)} {size : Nat}
    (inside : ∀ link ∈ links, link.1 < size ∧ link.2 < size) :
    ∀ link ∈ links.map Prod.swap, link.1 < size ∧ link.2 < size := by
  intro link member
  obtain ⟨original, among, rfl⟩ := List.mem_map.mp member
  exact (inside original among).symm

/-- Graphs with the same files that are joined alike report the same cycle. -/
theorem firstCycle_congr (closed : g.Closed) (names : g.names = h.names)
    (edges : ∀ a b, g.Edge a b ↔ h.Edge a b) : g.firstCycle = h.firstCycle := by
  have same := mem_links_congr names edges
  have sameSwapped : ∀ u v, (u, v) ∈ g.links.map Prod.swap ↔ (u, v) ∈ h.links.map Prod.swap := by
    intro u v
    simp [same]
  have below := reachable_congr closed.links same
  have above := reachable_congr (inside_swap closed.links) sameSwapped
  simp only [firstCycle, ← names, below, above]

end Report

end ImportGraph

end ImportFlattening
