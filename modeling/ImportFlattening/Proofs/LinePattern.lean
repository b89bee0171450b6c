import ImportFlattening.Proofs.PathSegments

/-! # Patterns over lines

A pattern is matched from a place in a text on. It may match in several ways, one of which is
preferred: repetitions take as much as they can, and what may be left out is taken if possible.
Erasing a pattern from a text goes from left to right and leaves out the preferred match wherever
there is one, going on behind it. Which runs of characters a pattern matches is a matter of its
constructors alone (`mem_ends_lineStart` to `mem_ends_optional`).
-/

namespace ImportFlattening

/-- A place in a text: the characters before it, the nearest first, and those after it. -/
structure Place where
  before : List Char
  rest : List Char
  deriving DecidableEq, Repr

namespace Place

/-- Whether the place is at the beginning of the text or behind a line feed. -/
def startsLine (place : Place) : Bool := place.before.head?.all (· = '\n')

/-- Whether the place is at the end of the text or in front of a line feed. -/
def endsLine (place : Place) : Bool := place.rest.head?.all (· = '\n')

/-- The run of characters from one place to another. -/
def Leads (place : Place) (run : List Char) (stop : Place) : Prop :=
  place.rest = run ++ stop.rest ∧ stop.before = run.reverse ++ place.before

variable {place middle stop : Place} {run run' : List Char} {c : Char}

theorem leads_nil : place.Leads [] stop ↔ stop = place := by
  cases place
  cases stop
  simp only [Leads, List.nil_append, List.reverse_nil, mk.injEq]
  tauto

theorem leads_cons {before cs : List Char} {d : Char} :
    Leads ⟨before, c :: cs⟩ (d :: run) stop ↔ c = d ∧ Leads ⟨c :: before, cs⟩ run stop := by
  simp only [Leads, List.cons_append, List.cons.injEq, List.reverse_cons, List.append_assoc]
  grind

theorem Leads.trans (first : place.Leads run middle) (second : middle.Leads run' stop) :
    place.Leads (run ++ run') stop := by
  refine ⟨?_, ?_⟩
  · rw [first.1, second.1, List.append_assoc]
  · rw [second.2, first.2, List.reverse_append, List.append_assoc]

/-- A run in two parts passes a place between them. -/
theorem Leads.cut (whole : place.Leads (run ++ run') stop) :
    ∃ middle, place.Leads run middle ∧ middle.Leads run' stop := by
  refine ⟨⟨run.reverse ++ place.before, run' ++ stop.rest⟩, ⟨?_, rfl⟩, rfl, ?_⟩
  · rw [whole.1, List.append_assoc]
  · rw [whole.2, List.reverse_append, List.append_assoc]

theorem Leads.unique (leads : place.Leads run stop) (leads' : place.Leads run middle) :
    stop = middle := by
  cases stop
  cases middle
  simp_all [Leads]

/-- A run within a line that leads to its end is all that there is of the line. -/
theorem Leads.eq_takeWhile (leads : place.Leads run stop) (oneLine : '\n' ∉ run)
    (last : stop.endsLine) : run = place.rest.takeWhile (· ≠ '\n') := by
  have inside : ∀ c ∈ run, decide (c ≠ '\n') = true := by
    intro c member
    exact decide_eq_true (ne_of_mem_of_not_mem member oneLine)
  have ended : stop.rest.takeWhile (· ≠ '\n') = [] := by
    cases rest : stop.rest with
    | nil => rfl
    | cons c cs =>
        obtain rfl : c = '\n' := by simpa [endsLine, rest] using last
        simp
  rw [leads.1, List.takeWhile_append_of_pos inside, ended, List.append_nil]

theorem startsLine_behind (other : c ≠ '\n') (before rest : List Char) :
    startsLine ⟨c :: before, rest⟩ = false := by
  simp [startsLine, other]

end Place

/-- A pattern, matched from a place in a text on. -/
inductive Pattern where
  | lineStart
  | lineEnd
  | literal (word : List Char)
  /-- One character of a class. -/
  | one (allowed : Char → Bool)
  /-- As many characters of a class as follow, or fewer. -/
  | many (allowed : Char → Bool)
  | seq (first second : Pattern)
  /-- The pattern, or else nothing. -/
  | optional (pattern : Pattern)

namespace Pattern

/-- The places where a run of characters of a class may stop, the last first. -/
def stops (allowed : Char → Bool) (before : List Char) : List Char → List Place
  | [] => [⟨before, []⟩]
  | c :: cs =>
    if allowed c then stops allowed (c :: before) cs ++ [⟨before, c :: cs⟩]
    else [⟨before, c :: cs⟩]

/-- The places where a match from the given place may end, the preferred ones first. -/
def ends : Pattern → Place → List Place
  | lineStart, place => if place.startsLine then [place] else []
  | lineEnd, place => if place.endsLine then [place] else []
  | literal word, place =>
    if word.isPrefixOf place.rest then
      [⟨word.reverse ++ place.before, place.rest.drop word.length⟩]
    else []
  | one allowed, place =>
    match place.rest with
    | [] => []
    | c :: cs => if allowed c then [⟨c :: place.before, cs⟩] else []
  | many allowed, place => stops allowed place.before place.rest
  | seq first second, place => (first.ends place).flatMap second.ends
  | optional pattern, place => pattern.ends place ++ [place]

/-- What is left of the text from a place on without the preferred matches, each looked for behind
the one before it. A match of nothing has nothing to leave out. -/
def eraseFrom (pattern : Pattern) (before : List Char) : List Char → List Char
  | [] => []
  | c :: cs =>
    match (pattern.ends ⟨before, c :: cs⟩).head? with
    | none => c :: pattern.eraseFrom (c :: before) cs
    | some stop =>
      if stop.rest.length ≤ cs.length then pattern.eraseFrom stop.before stop.rest
      else c :: pattern.eraseFrom (c :: before) cs
termination_by rest => rest.length

def erase (pattern : Pattern) (text : String) : String :=
  String.ofList (pattern.eraseFrom [] text.toList)

section Matches

variable {place stop : Place} {allowed : Char → Bool} {word : List Char} {p q : Pattern}

theorem mem_ends_lineStart : stop ∈ lineStart.ends place ↔ place.startsLine ∧ stop = place := by
  simp only [ends]
  split <;> simp_all

theorem mem_ends_lineEnd : stop ∈ lineEnd.ends place ↔ place.endsLine ∧ stop = place := by
  simp only [ends]
  split <;> simp_all

theorem mem_ends_literal : stop ∈ (literal word).ends place ↔ place.Leads word stop := by
  simp only [ends, List.isPrefixOf_iff_prefix, Place.Leads]
  constructor
  · intro member
    split at member
    case isTrue found =>
      obtain ⟨tail, rest⟩ := found
      obtain rfl := List.mem_singleton.mp member
      simp [← rest]
    case isFalse => cases member
  · rintro ⟨rest, before⟩
    rw [if_pos ⟨stop.rest, rest.symm⟩, List.mem_singleton, rest, List.drop_left, ← before]

theorem mem_ends_one :
    stop ∈ (one allowed).ends place ↔ ∃ c, allowed c ∧ place.Leads [c] stop := by
  obtain ⟨before, rest⟩ := place
  obtain ⟨before', rest'⟩ := stop
  cases rest with
  | nil => simp [ends, Place.Leads]
  | cons c cs =>
      simp only [ends, Place.Leads]
      grind

theorem mem_stops (before rest : List Char) :
    stop ∈ stops allowed before rest ↔
      ∃ run, (∀ c ∈ run, allowed c) ∧ Place.Leads ⟨before, rest⟩ run stop := by
  have still : Place.Leads ⟨before, rest⟩ [] stop ↔ stop = ⟨before, rest⟩ := Place.leads_nil
  induction rest generalizing before with
  | nil =>
      rw [stops, List.mem_singleton, ← still]
      constructor
      · intro here
        exact ⟨[], by simp, here⟩
      · rintro ⟨run, -, leads⟩
        obtain ⟨rfl, -⟩ := List.append_eq_nil_iff.mp leads.1.symm
        exact leads
  | cons c cs ih =>
      have further := ih (c :: before) Place.leads_nil
      constructor
      · intro member
        unfold stops at member
        split at member
        case isTrue chosen =>
          rcases List.mem_append.mp member with later | here
          · obtain ⟨run, all, leads⟩ := further.mp later
            exact ⟨c :: run, List.forall_mem_cons.mpr ⟨chosen, all⟩,
              Place.leads_cons.mpr ⟨rfl, leads⟩⟩
          · exact ⟨[], by simp, still.mpr (List.mem_singleton.mp here)⟩
        case isFalse => exact ⟨[], by simp, still.mpr (List.mem_singleton.mp member)⟩
      · rintro ⟨run, all, leads⟩
        unfold stops
        cases run with
        | nil =>
            rw [still.mp leads]
            split <;> simp
        | cons d run =>
            obtain ⟨rfl, onward⟩ := Place.leads_cons.mp leads
            obtain ⟨chosen, others⟩ := List.forall_mem_cons.mp all
            rw [if_pos chosen]
            exact List.mem_append_left _ (further.mpr ⟨run, others, onward⟩)

theorem mem_ends_many : stop ∈ (many allowed).ends place ↔
    ∃ run, (∀ c ∈ run, allowed c) ∧ place.Leads run stop :=
  mem_stops place.before place.rest

theorem mem_ends_seq :
    stop ∈ (seq p q).ends place ↔ ∃ middle ∈ p.ends place, stop ∈ q.ends middle :=
  List.mem_flatMap

theorem mem_ends_optional :
    stop ∈ (optional p).ends place ↔ stop ∈ p.ends place ∨ stop = place := by
  simp [ends]

end Matches

/-- A pattern that matches a whole line or nothing, and which lines it matches. -/
def WholeLines (p : Pattern) (matched : List Char → Prop) : Prop :=
  ∀ place stop, stop ∈ p.ends place ↔ place.startsLine ∧ stop.endsLine ∧
    ∃ run, place.Leads run stop ∧ '\n' ∉ run ∧ matched run

section Erase

variable {p : Pattern} {before rest cs run line tail : List Char} {c : Char} {place stop : Place}

/-- Where there is nothing to match but nothing, the next character stays. -/
theorem eraseFrom_cons (idle : ∀ stop ∈ p.ends ⟨before, c :: cs⟩, stop = ⟨before, c :: cs⟩) :
    p.eraseFrom before (c :: cs) = c :: p.eraseFrom (c :: before) cs := by
  rw [eraseFrom]
  split
  case h_1 => rfl
  case h_2 stop first =>
    rw [idle stop (List.mem_of_head? first), if_neg (by simp)]

theorem eraseFrom_first (first : (p.ends ⟨before, rest⟩).head? = some stop)
    (leads : Place.Leads ⟨before, rest⟩ run stop) (nonempty : run ≠ []) :
    p.eraseFrom before rest = p.eraseFrom stop.before stop.rest := by
  cases run with
  | nil => exact absurd rfl nonempty
  | cons c run =>
      have shape : rest = c :: (run ++ stop.rest) := leads.1
      subst shape
      rw [eraseFrom, first]
      simp

variable {matched : List Char → Prop}

namespace WholeLines

theorem eraseFrom_inside (whole : p.WholeLines matched)
    (inside : Place.startsLine ⟨before, run ++ tail⟩ = false) (oneLine : '\n' ∉ run) :
    p.eraseFrom before (run ++ tail) = run ++ p.eraseFrom (run.reverse ++ before) tail := by
  induction run generalizing before with
  | nil => rfl
  | cons c run ih =>
      obtain ⟨other, oneLine⟩ := List.ne_and_not_mem_of_not_mem_cons oneLine
      have idle : ∀ stop ∈ p.ends ⟨before, c :: (run ++ tail)⟩,
          stop = ⟨before, c :: (run ++ tail)⟩ := by
        intro stop member
        exact absurd (((whole _ _).mp member).1.symm.trans inside) (by decide)
      rw [List.cons_append, eraseFrom_cons idle,
        ih (Place.startsLine_behind (Ne.symm other) _ _) oneLine]
      simp

theorem eraseFrom_feed (whole : p.WholeLines matched) (before rest : List Char) :
    p.eraseFrom before ('\n' :: rest) = '\n' :: p.eraseFrom ('\n' :: before) rest := by
  apply eraseFrom_cons
  intro stop member
  obtain ⟨-, -, run, leads, oneLine, -⟩ := (whole _ _).mp member
  cases run with
  | nil => exact Place.leads_nil.mp leads
  | cons c run =>
      obtain ⟨rfl, -⟩ := Place.leads_cons.mp leads
      exact absurd List.mem_cons_self oneLine

/-- Whatever is matched in a line is the line. -/
theorem of_mem_ends (whole : p.WholeLines matched) (leads : place.Leads line stop)
    (oneLine : '\n' ∉ line) (last : stop.endsLine) {other : Place} (member : other ∈ p.ends place) :
    matched line ∧ other = stop := by
  obtain ⟨-, last', run, leads', oneLine', found⟩ := (whole _ _).mp member
  obtain rfl : run = line :=
    (leads'.eq_takeWhile oneLine' last').trans (leads.eq_takeWhile oneLine last).symm
  exact ⟨found, leads'.unique leads⟩

theorem head?_ends (whole : p.WholeLines matched) (start : place.startsLine)
    (leads : place.Leads line stop) (oneLine : '\n' ∉ line) (last : stop.endsLine)
    (found : matched line) : (p.ends place).head? = some stop := by
  have member := (whole _ _).mpr ⟨start, last, line, leads, oneLine, found⟩
  cases shape : p.ends place with
  | nil =>
      rw [shape] at member
      cases member
  | cons other others =>
      have among : other ∈ p.ends place := shape ▸ List.mem_cons_self
      rw [List.head?_cons, (whole.of_mem_ends leads oneLine last among).2]

variable [DecidablePred matched]

theorem eraseFrom_line (whole : p.WholeLines matched)
    (start : Place.startsLine ⟨before, line ++ tail⟩) (oneLine : '\n' ∉ line)
    (last : Place.endsLine ⟨line.reverse ++ before, tail⟩) :
    p.eraseFrom before (line ++ tail) =
      (if matched line then [] else line) ++ p.eraseFrom (line.reverse ++ before) tail := by
  have leads : Place.Leads ⟨before, line ++ tail⟩ line ⟨line.reverse ++ before, tail⟩ := ⟨rfl, rfl⟩
  cases line with
  | nil => simp
  | cons c cs =>
      split
      case isTrue found =>
        exact eraseFrom_first (whole.head?_ends start leads oneLine last found) leads
          (List.cons_ne_nil _ _)
      case isFalse other =>
        -- the first character stays, and behind it no line starts before the next line feed
        have idle : ∀ stop ∈ p.ends ⟨before, c :: (cs ++ tail)⟩,
            stop = ⟨before, c :: (cs ++ tail)⟩ :=
          fun stop member => absurd (whole.of_mem_ends leads oneLine last member).1 other
        obtain ⟨different, oneLine⟩ := List.ne_and_not_mem_of_not_mem_cons oneLine
        rw [List.cons_append, eraseFrom_cons idle, whole.eraseFrom_inside
          (Place.startsLine_behind (Ne.symm different) _ _) oneLine]
        simp

theorem eraseFrom_join (whole : p.WholeLines matched) (lines : List (List Char))
    (nonempty : lines ≠ []) (oneLine : ∀ line ∈ lines, '\n' ∉ line)
    (start : Place.startsLine ⟨before, []⟩) :
    p.eraseFrom before (Text.join '\n' lines) =
      Text.join '\n' (lines.map fun line => if matched line then [] else line) := by
  induction lines generalizing before with
  | nil => exact absurd rfl nonempty
  | cons line lines ih =>
      obtain ⟨first, others⟩ := List.forall_mem_cons.mp oneLine
      cases lines with
      | nil =>
          have single : p.eraseFrom before (line ++ []) =
              (if matched line then [] else line) ++ p.eraseFrom (line.reverse ++ before) [] :=
            whole.eraseFrom_line start first rfl
          simpa [Text.join, eraseFrom] using single
      | cons next lines =>
          have joined : Text.join '\n' (line :: next :: lines) =
              line ++ '\n' :: Text.join '\n' (next :: lines) := by simp [Text.join]
          rw [joined, whole.eraseFrom_line start first rfl, whole.eraseFrom_feed,
            ih (List.cons_ne_nil _ _) others rfl]
          simp [Text.join]

/-- A pattern that matches whole lines is erased line by line. -/
theorem erase_eq (whole : p.WholeLines matched) (text : String) :
    p.erase text = String.ofList (Text.join '\n' ((Text.split '\n' text.toList).map
      fun line => if matched line then [] else line)) := by
  have lines : p.eraseFrom [] (Text.join '\n' (Text.split '\n' text.toList)) = _ :=
    whole.eraseFrom_join _ (Text.split_ne_nil _ _)
      (fun _ member => Text.sep_notMem_of_mem_split member) rfl
  rw [Text.join_split] at lines
  rw [erase, lines]

end WholeLines

end Erase

end Pattern

end ImportFlattening
