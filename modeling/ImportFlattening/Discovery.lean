import ImportFlattening.Error
import ImportFlattening.ImportGraph

/-! # Discovery of the import graph

The graph of a target is found by walking its imports depth first, with the files under way on a
stack. A file is entered at its first import only. Later imports of it add an edge when the file
is finished, and close a cycle when it is still under way.

The walk ends because each step enters a file for the first time, consumes an import, or leaves a
file: `Walk.step_decreases`.
-/

namespace ImportFlattening

/-- A file under way: its name and those of its imports that are still to be followed. -/
structure Frame where
  name : SourceName
  pending : List Import
  deriving DecidableEq, Repr

/-- What has been found of an import graph. -/
structure Discovery where
  graph : ImportGraph := {}
  /-- The imports that closed a cycle. -/
  cycles : List Import := []
  /-- The imports that were skipped because their file has no syntax tree. -/
  skipped : List Import := []
  deriving DecidableEq, Repr

structure Walk where
  /-- The files under way, the innermost first. -/
  stack : List Frame
  visited : List SourceName
  /-- The files that have been entered and not left. -/
  active : List SourceName
  found : Discovery
  deriving DecidableEq, Repr

/-- What an import leads to, at the moment when it is followed. -/
inductive Meeting where
  /-- A file without a syntax tree. -/
  | missing
  /-- A file entered for the first time. -/
  | fresh (unit : SourceUnit)
  /-- A file under way. -/
  | active
  /-- A file that has been left. -/
  | finished
  deriving DecidableEq, Repr

namespace Walk

def frame (name : SourceName) (unit : SourceUnit) : Frame := ⟨name, unit.importsFrom name⟩

/-- The walk that has just entered its target. -/
def start (target : SourceName) (unit : SourceUnit) : Walk where
  stack := [frame target unit]
  visited := [target]
  active := [target]
  found := { graph := ImportGraph.empty.addName target }

def meet (units : NameMap SourceUnit) (w : Walk) (name : SourceName) : Meeting :=
  if name ∈ w.visited then
    if name ∈ w.active then .active else .finished
  else
    match units.get? name with
    | none => .missing
    | some unit => .fresh unit

def addEdge (w : Walk) (i : Import) : Walk :=
  { w with found := { w.found with graph := w.found.graph.addEdge i } }

def addCycle (w : Walk) (i : Import) : Walk :=
  { w with found := { w.found with cycles := w.found.cycles ++ [i] } }

def addSkipped (w : Walk) (i : Import) : Walk :=
  { w with found := { w.found with skipped := w.found.skipped ++ [i] } }

def enter (w : Walk) (name : SourceName) (unit : SourceUnit) : Walk :=
  { w with
    stack := frame name unit :: w.stack
    visited := name :: w.visited
    active := name :: w.active }

/-- Leave the innermost file, `name`, for the files around it. -/
def leave (w : Walk) (name : SourceName) (outer : List Frame) : Walk :=
  { w with stack := outer, active := w.active.filter (· ≠ name) }

/-- Follow one import, which is no longer pending in `w`. -/
def follow (units : NameMap SourceUnit) (policy : Policy) (w : Walk) (i : Import) :
    Except Error Walk :=
  match w.meet units i.dependee with
  | .missing =>
    match policy.unresolved with
    | .fail => .error (.unresolved i)
    | .skip => .ok (w.addSkipped i)
  | .fresh unit => .ok ((w.addEdge i).enter i.dependee unit)
  | .active =>
    match policy.cycles with
    | .drop => .ok (w.addCycle i)
    | .keep => .ok ((w.addEdge i).addCycle i)
  | .finished =>
    if w.found.graph.hasEdge i.importer i.dependee then .ok w else .ok (w.addEdge i)

/-- One step of the walk: follow the next import of the innermost file, or leave the file. There is
no step once every file has been left. -/
def step (units : NameMap SourceUnit) (policy : Policy) (w : Walk) : Except Error (Option Walk) :=
  match w.stack with
  | [] => .ok none
  | ⟨name, []⟩ :: outer => .ok (some (w.leave name outer))
  | ⟨name, i :: rest⟩ :: outer =>
    ({ w with stack := ⟨name, rest⟩ :: outer }.follow units policy i).map some

/-- The number of files that could still be entered. -/
def unseen (units : NameMap SourceUnit) (w : Walk) : Nat :=
  (units.names.filter (· ∉ w.visited)).length

/-- The number of steps to leave every file under way, if no file were entered. -/
def remaining (w : Walk) : Nat :=
  w.stack.foldr (fun f steps => f.pending.length + 1 + steps) 0

theorem meet_eq_fresh {units : NameMap SourceUnit} {w : Walk} {name : SourceName}
    {unit : SourceUnit} (h : w.meet units name = .fresh unit) :
    name ∉ w.visited ∧ units.get? name = some unit := by
  unfold meet at h
  split at h
  · split at h <;> simp at h
  · rename_i unvisited
    split at h
    · simp at h
    · rename_i found
      exact ⟨unvisited, by simpa [found] using h⟩

theorem unseen_enter_lt {units : NameMap SourceUnit} {w : Walk} {name : SourceName}
    {unit : SourceUnit} (known : name ∈ units.names) (unvisited : name ∉ w.visited) :
    (w.enter name unit).unseen units < w.unseen units := by
  have split : (units.names.filter (· ∉ name :: w.visited)) =
      (units.names.filter (· ∉ w.visited)).filter (· ≠ name) := by
    rw [List.filter_filter]
    congr 1
    funext x
    simp [not_or]
  have member : name ∈ units.names.filter (· ∉ w.visited) := by simp [known, unvisited]
  change (units.names.filter (· ∉ name :: w.visited)).length < _
  rw [split]
  exact List.length_filter_lt_length_iff_exists.mpr ⟨name, member, by simp⟩

/-- Following an import enters a new file or leaves the walk as far along as it was. -/
theorem follow_cases {units : NameMap SourceUnit} {policy : Policy} {w next : Walk} {i : Import}
    (h : w.follow units policy i = .ok next) :
    next.unseen units < w.unseen units ∨ next.visited = w.visited ∧ next.stack = w.stack := by
  unfold follow at h
  split at h
  · split at h
    · simp at h
    · cases h
      exact Or.inr ⟨rfl, rfl⟩
  · rename_i unit met
    cases h
    have ⟨unvisited, found⟩ := meet_eq_fresh met
    exact Or.inl (unseen_enter_lt (w := w.addEdge i) (NameMap.mem_names_of_get? found) unvisited)
  · split at h <;> cases h <;> exact Or.inr ⟨rfl, rfl⟩
  · split at h <;> cases h <;> exact Or.inr ⟨rfl, rfl⟩

/-- A step lowers the number of unseen files, or keeps it and lowers the number of remaining steps. -/
theorem step_decreases {units : NameMap SourceUnit} {policy : Policy} {w next : Walk}
    (h : w.step units policy = .ok (some next)) :
    Prod.Lex (· < ·) (· < ·) (next.unseen units, next.remaining)
      (w.unseen units, w.remaining) := by
  unfold step at h
  split at h
  · simp at h
  · rename_i name outer stack
    cases h
    exact Prod.Lex.right' _ (Nat.le_refl _) (by simp [remaining, leave, stack])
  · rename_i name i rest outer stack
    obtain ⟨followed, ok, eq⟩ : ∃ followed, { w with stack := ⟨name, rest⟩ :: outer }.follow
        units policy i = .ok followed ∧ some followed = some next := by
      cases done : { w with stack := ⟨name, rest⟩ :: outer }.follow units policy i with
      | error e => simp [done, Except.map] at h
      | ok followed => exact ⟨followed, rfl, by simpa [done, Except.map] using h⟩
    cases eq
    rcases follow_cases ok with fewer | ⟨visited, same⟩
    · exact Prod.Lex.left _ _ fewer
    · refine Prod.Lex.right' _ (Nat.le_of_eq ?_) ?_
      · simp [unseen, visited]
      · simp [remaining, same, stack]

/-- Walk until every file has been left. -/
def run (units : NameMap SourceUnit) (policy : Policy) (w : Walk) : Except Error Discovery :=
  match _h : w.step units policy with
  | .error e => .error e
  | .ok none => .ok w.found
  | .ok (some next) => run units policy next
termination_by (w.unseen units, w.remaining)
decreasing_by exact step_decreases _h

end Walk

/-- The import graph of `target`. -/
def discover (units : NameMap SourceUnit) (policy : Policy) (target : SourceName) :
    Except Error Discovery :=
  match units.get? target with
  | none => .error (.unknownTarget target)
  | some unit => (Walk.start target unit).run units policy

end ImportFlattening
