import ImportFlattening.ImportGraph

/-! # Cycles of an import graph

A rank lies on a cycle when following edges from it leads back to it. The cycle that is reported is
the one through the first such rank: every file that it reaches and that reaches it.
-/

namespace ImportFlattening

namespace ImportGraph

/-- The ranks one edge away from `v`, once per edge. -/
def successors (links : List (Nat × Nat)) (v : Nat) : List Nat :=
  links.filterMap fun link => if link.1 = v then some link.2 else none

/-- Extend `seen` by what its newest part `frontier` leads to, for at most `rounds` rounds. Every
round but the last finds something new, so as many rounds as there are ranks suffice. -/
def spread (links : List (Nat × Nat)) : (rounds : Nat) → (seen frontier : List Nat) → List Nat
  | 0, seen, _ => seen
  | rounds + 1, seen, frontier =>
    let fresh := ((frontier.flatMap (successors links)).filter (· ∉ seen)).eraseDups
    if fresh.isEmpty then seen else spread links rounds (seen ++ fresh) fresh

/-- The ranks that one or more edges lead to from `v`, among `size` ranks. -/
def reachable (links : List (Nat × Nat)) (size v : Nat) : List Nat :=
  let next := (successors links v).eraseDups
  spread links size next next

/-- The members of the cycle through the file first discovered among those that lie on a cycle, in
order of discovery. Empty if no file lies on a cycle. -/
def firstCycle (g : ImportGraph) : List SourceName :=
  let links := g.links
  let size := g.names.length
  match (List.range size).find? fun v => v ∈ reachable links size v with
  | none => []
  | some first =>
    let below := reachable links size first
    let above := reachable (links.map Prod.swap) size first
    ((List.range size).filter fun v => v ∈ below && v ∈ above).filterMap (g.names[·]?)

end ImportGraph

end ImportFlattening
