import ImportFlattening.Proofs.WalkState

/-! # The rounds of a walk

Each step of a walk takes a frame off its stack or consumes an import, and may put on a frame for the
file that the import leads to. A trace lists these moves. Every walk has a trace that cannot be
continued, and a walk that succeeds has made its moves for each file of its graph: one frame put on
and taken off, and each import consumed in its turn (`Walk.Accounted`).
-/

namespace ImportFlattening

open Relation

namespace Walk

/-- What a step does to the stack. -/
inductive Move where
  /-- The frame of a file is taken off. -/
  | leave (name : SourceName)
  /-- An import is consumed. -/
  | pass (i : Import)
  /-- An import is consumed, and a frame is put on for the file that it leads to. -/
  | enter (i : Import)
  deriving DecidableEq, Repr

namespace Move

/-- The files whose frames are put on. -/
def pushed : Move → List SourceName
  | enter i => [i.dependee]
  | leave _ | pass _ => []

/-- The files whose frames are taken off. -/
def popped : Move → List SourceName
  | leave name => [name]
  | pass _ | enter _ => []

def consumed : Move → List Import
  | pass i | enter i => [i]
  | leave _ => []

/-- The move makes the second stack of the first. -/
inductive Turns : Move → List Frame → List Frame → Prop where
  | leave (name : SourceName) (outer : List Frame) : Turns (.leave name) (⟨name, []⟩ :: outer) outer
  | pass (name : SourceName) (i : Import) (rest : List Import) (outer : List Frame) :
      Turns (.pass i) (⟨name, i :: rest⟩ :: outer) (⟨name, rest⟩ :: outer)
  | enter (name : SourceName) (i : Import) (rest pending : List Import) (outer : List Frame) :
      Turns (.enter i) (⟨name, i :: rest⟩ :: outer)
        (⟨i.dependee, pending⟩ :: ⟨name, rest⟩ :: outer)

theorem Turns.unique {move other : Move} {before after : List Frame}
    (turns : move.Turns before after) (turns' : other.Turns before after) : move = other := by
  cases turns <;> cases turns' <;> rfl

end Move

/-- The steps that lead from one walk to another, by their moves. -/
inductive Trace (units : NameMap SourceUnit) (policy : Policy) : Walk → List Move → Walk → Prop where
  | done (w : Walk) : Trace units policy w [] w
  | step {w next last : Walk} {move : Move} {moves : List Move} (step : Next units policy w next)
      (turns : move.Turns w.stack next.stack) (later : Trace units policy next moves last) :
      Trace units policy w (move :: moves) last

variable {units : NameMap SourceUnit} {policy : Policy} {target name : SourceName}
  {unit : SourceUnit} {w next last : Walk} {move : Move} {moves others : List Move}

theorem Next.turns (step : Next units policy w next) :
    ∃ move : Move, move.Turns w.stack next.stack := by
  cases step.advance with
  | leave stack =>
      rw [stack]
      exact ⟨_, .leave _ _⟩
  | enter stack =>
      rw [stack]
      exact ⟨_, .enter _ _ _ _ _⟩
  | skip stack | drop stack | keep stack | pass stack | join stack =>
      rw [stack]
      exact ⟨_, .pass _ _ _ _⟩

theorem Next.unique {other : Walk} (step : Next units policy w next)
    (step' : Next units policy w other) : next = other := by
  simpa [Next] using step.symm.trans step'

theorem left_of_step (ended : w.step units policy = .ok none) : w.stack = [] := by
  unfold Walk.step at ended
  split at ended
  case h_1 stack => exact stack
  case h_2 => cases ended
  case h_3 =>
    generalize Walk.follow _ _ _ _ = followed at ended
    cases followed <;> cases ended

namespace Trace

/-- What a walk comes to is what its last step says. -/
theorem exists_last (units : NameMap SourceUnit) (policy : Policy) (w : Walk) :
    ∃ moves last, Trace units policy w moves last ∧
      ((∃ e, last.step units policy = .error e ∧ w.run units policy = .error e) ∨
        last.step units policy = .ok none ∧ w.run units policy = .ok last.found) := by
  induction w using Walk.run.induct units policy with
  | case1 w e failed => exact ⟨[], w, .done w, .inl ⟨e, failed, run_of_error failed⟩⟩
  | case2 w ended =>
      exact ⟨[], w, .done w, .inr ⟨ended, run_of_left (left_of_step ended)⟩⟩
  | case3 w next step ih =>
      obtain ⟨moves, last, trace, ended⟩ := ih
      obtain ⟨move, turns⟩ := Next.turns step
      rw [run_of_step step]
      exact ⟨move :: moves, last, .step step turns trace, ended⟩

theorem reaches (trace : Trace units policy w moves last) :
    ReflTransGen (Next units policy) w last := by
  induction trace with
  | done => exact .refl
  | step step _ _ ih => exact .head step ih

/-- Where one trace cannot be continued, no other goes further. -/
theorem isPrefix (trace : Trace units policy w moves last)
    (ended : ∀ next, ¬ Next units policy last next) (other : Trace units policy w others next) :
    others <+: moves := by
  induction other generalizing moves with
  | done => exact List.nil_prefix
  | step step turns _ ih =>
      cases trace with
      | done => exact absurd step (ended _)
      | step step' turns' later =>
          obtain rfl := step.unique step'
          obtain rfl := turns.unique turns'
          exact (List.prefix_cons_inj _).mpr (ih later)

end Trace

/-- The moves account for all that a walk from `target` has visited: the files entered and left, and
the imports that have been consumed or are still pending. -/
structure Accounted (units : NameMap SourceUnit) (target : SourceName) (moves : List Move)
    (w : Walk) : Prop where
  entered : w.visited.reverse = target :: moves.flatMap Move.pushed
  left : (moves.flatMap Move.popped ++ w.stack.map Frame.name).Perm w.visited
  imports : ∀ name, (moves.flatMap Move.consumed ++ w.stack.flatMap Frame.pending).filter
    (·.importer = name) = if name ∈ w.visited then importsOf units name else []

theorem filter_importsOf (units : NameMap SourceUnit) (file name : SourceName) :
    (importsOf units file).filter (·.importer = name) =
      if name = file then importsOf units name else [] := by
  split
  case isTrue same =>
    subst same
    exact List.filter_eq_self.mpr fun i member => by simpa using importer_of_mem member
  case isFalse different =>
    refine List.filter_eq_nil_iff.mpr fun i member => ?_
    simpa [importer_of_mem member] using Ne.symm different

namespace Accounted

variable {i : Import} {rest : List Import} {outer : List Frame}

theorem start (found : units.get? target = some unit) :
    Accounted units target [] (Walk.start target unit) where
  entered := rfl
  left := .refl _
  imports := by
    intro name
    have pending : (Walk.start target unit).stack.flatMap Frame.pending = importsOf units target := by
      rw [importsOf_found found]
      exact List.append_nil _
    rw [pending, List.flatMap_nil, List.nil_append, filter_importsOf]
    simp only [Walk.start, List.mem_singleton]

theorem leave (h : Accounted units target moves w) (stack : w.stack = ⟨name, []⟩ :: outer)
    (remaining : next.stack = outer) (visited : next.visited = w.visited) :
    Accounted units target (moves ++ [.leave name]) next where
  entered := by simpa [visited, Move.pushed] using h.entered
  left := by simpa [visited, remaining, stack, Move.popped] using h.left
  imports := by simpa [visited, remaining, stack, Move.consumed] using h.imports

theorem pass (h : Accounted units target moves w) (stack : w.stack = ⟨name, i :: rest⟩ :: outer)
    (remaining : next.stack = ⟨name, rest⟩ :: outer) (visited : next.visited = w.visited) :
    Accounted units target (moves ++ [.pass i]) next where
  entered := by simpa [visited, Move.pushed] using h.entered
  left := by simpa [visited, remaining, stack, Move.popped] using h.left
  imports := by simpa [visited, remaining, stack, Move.consumed] using h.imports

theorem enter (h : Accounted units target moves w) (stack : w.stack = ⟨name, i :: rest⟩ :: outer)
    (deeper : next.stack = ⟨i.dependee, importsOf units i.dependee⟩ :: ⟨name, rest⟩ :: outer)
    (visited : next.visited = i.dependee :: w.visited) (unvisited : i.dependee ∉ w.visited) :
    Accounted units target (moves ++ [.enter i]) next where
  entered := by simp [visited, Move.pushed, h.entered]
  left := by
    have left := h.left
    simp only [stack, List.map_cons] at left
    simp only [visited, deeper, List.flatMap_append, List.flatMap_singleton, Move.popped,
      List.append_nil, List.map_cons]
    exact List.perm_middle.trans (left.cons _)
  imports := by
    intro file
    have before := h.imports file
    rw [stack, List.flatMap_cons, List.cons_append, List.append_cons, List.filter_append] at before
    have listed : (moves ++ [Move.enter i]).flatMap Move.consumed ++
          next.stack.flatMap Frame.pending =
        (moves.flatMap Move.consumed ++ [i]) ++
          (importsOf units i.dependee ++ (rest ++ outer.flatMap Frame.pending)) := by
      simp [deeper, Move.consumed]
    rw [listed, List.filter_append, List.filter_append (importsOf _ _), filter_importsOf, visited]
    by_cases same : file = i.dependee
    · -- nothing of the file entered was consumed or pending before
      rw [same, if_neg unvisited, List.append_eq_nil_iff] at before
      rw [same, before.1, before.2]
      simp
    · simpa [same] using before

theorem step (h : Accounted units target moves w) (step : Next units policy w next)
    (turns : move.Turns w.stack next.stack) : Accounted units target (moves ++ [move]) next := by
  cases step.advance with
  | leave stack =>
      rw [stack] at turns
      obtain rfl := turns.unique (.leave _ _)
      exact h.leave stack rfl rfl
  | enter stack unvisited found =>
      rw [stack] at turns
      obtain rfl := turns.unique (.enter _ _ _ _ _)
      refine h.enter stack ?_ rfl unvisited
      rw [importsOf_found found]
      rfl
  | skip stack | drop stack | keep stack | pass stack | join stack =>
      rw [stack] at turns
      obtain rfl := turns.unique (.pass _ _ _ _)
      exact h.pass stack rfl rfl

theorem trace (h : Accounted units target moves w) (trace : Trace units policy w others last) :
    Accounted units target (moves ++ others) last := by
  induction trace generalizing moves with
  | done => simpa using h
  | step step turns _ ih => simpa using ih (h.step step turns)

end Accounted

/-- Whatever the imports, the steps of a walk come to an end, and the outcome is that of the last
step. If the walk succeeds, a frame has been put on the stack and taken off once for each file of the
graph, and each import of these files has been consumed once, a file's imports in source order. -/
theorem walk_comes_to_an_end (units : NameMap SourceUnit) (policy : Policy) (target : SourceName) :
    (units.get? target = none → discover units policy target = .error (.unknownTarget target)) ∧
    ∀ unit, units.get? target = some unit →
      ∃ moves last, Trace units policy (Walk.start target unit) moves last ∧
        (∀ others w, Trace units policy (Walk.start target unit) others w → others <+: moves) ∧
        ((∃ e, last.step units policy = .error e ∧ discover units policy target = .error e) ∨
          last.stack = [] ∧ discover units policy target = .ok last.found ∧
          last.found.graph.names.Nodup ∧
          target :: moves.flatMap Move.pushed = last.found.graph.names ∧
          (moves.flatMap Move.popped).Perm last.found.graph.names ∧
          ∀ name, (moves.flatMap Move.consumed).filter (·.importer = name) =
            if name ∈ last.found.graph.names then importsOf units name else []) := by
  refine ⟨fun unknown => by simp only [discover, unknown], ?_⟩
  intro unit found
  have run : discover units policy target = (Walk.start target unit).run units policy := by
    simp only [discover, found]
  obtain ⟨moves, last, trace, outcome⟩ := Trace.exists_last units policy (Walk.start target unit)
  have ended : ∀ next, ¬ Next units policy last next := by
    intro next step
    rcases outcome with ⟨e, failed, -⟩ | ⟨none, -⟩
    · rw [Next, failed] at step
      cases step
    · rw [Next, none] at step
      cases step
  refine ⟨moves, last, trace, fun others w other => trace.isPrefix ended other, ?_⟩
  rw [run]
  refine outcome.imp_right ?_
  rintro ⟨none, result⟩
  have left := left_of_step none
  have accounted := (Accounted.start found).trace trace
  have consistent := (Consistent.start policy found).reached trace.reaches
  refine ⟨left, result, ?_, ?_, ?_, ?_⟩
  · rw [consistent.names]
    exact List.nodup_reverse.mpr consistent.visitedOnce
  · rw [consistent.names]
    exact accounted.entered.symm
  · rw [consistent.names]
    have popped := accounted.left
    rw [left, List.map_nil, List.append_nil] at popped
    exact popped.trans (List.reverse_perm _).symm
  · intro name
    have consumed := accounted.imports name
    rw [left, List.flatMap_nil, List.append_nil, List.nil_append] at consumed
    simp only [consumed, consistent.mem_names]

theorem tangledUnits_comes_to_an_end :
    let unit := SourceUnit.ofImports ["./B", "./C", "B", "./Gone"]
    tangledUnits.get? ⟨"A"⟩ = some unit ∧
    ∃ moves last, Trace tangledUnits ⟨.skip, .drop⟩ (Walk.start ⟨"A"⟩ unit) moves last ∧
      ⟨"A"⟩ :: moves.flatMap Move.pushed = [⟨"A"⟩, ⟨"B"⟩, ⟨"D"⟩, ⟨"C"⟩] ∧
      (moves.flatMap Move.popped).Perm [⟨"A"⟩, ⟨"B"⟩, ⟨"D"⟩, ⟨"C"⟩] ∧
      (moves.flatMap Move.consumed).filter (·.importer = ⟨"A"⟩) = importsOf tangledUnits ⟨"A"⟩ := by
  intro unit
  have found : tangledUnits.get? ⟨"A"⟩ = some unit := by decide
  obtain ⟨-, ends⟩ := walk_comes_to_an_end tangledUnits ⟨.skip, .drop⟩ ⟨"A"⟩
  obtain ⟨moves, last, trace, -, outcome⟩ := ends unit found
  refine ⟨found, moves, last, trace, ?_⟩
  rw [discover_tangledUnits] at outcome
  rcases outcome with ⟨e, -, failed⟩ | ⟨-, result, -, pushed, popped, consumed⟩
  · cases failed
  · have names := congrArg (·.graph.names) (Except.ok.inj result)
    rw [← names] at pushed popped
    refine ⟨pushed, popped, (consumed ⟨"A"⟩).trans (if_pos ?_)⟩
    rw [← names]
    decide

end Walk

end ImportFlattening
