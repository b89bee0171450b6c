import ImportFlattening.Proofs.ClosingEdges
import ImportFlattening.Proofs.ContainedWrites
import ImportFlattening.Proofs.CurrentOutput
import ImportFlattening.Proofs.WireRoundTrip
import Mathlib.Data.String.Lemmas

/-! # The outputs of the program agree

A run that flattens prints, copies and saves one text, and the files that it is made of are those
that the program lists when it is asked for their order, line by line (`Program.Lists`). Where there
is no order there is no text, for the same reason.
-/

namespace ImportFlattening

theorem Compilation.order_of_flatten {c : Compilation} {policy : Policy} {f : Flattened}
    (flat : c.flatten policy = .ok f) : c.order policy = .ok f.order := by
  cases ordered : c.order policy with
  | error e =>
      rw [flatten_error_of_order ordered] at flat
      cases flat
  | ok o =>
      simp only [flatten, ordered, bind, Except.bind] at flat
      cases joined : FlatText.concatenate c.texts o.names with
      | error e => simp [joined] at flat
      | ok text =>
          simp only [joined] at flat
          cases flat
          rfl

namespace LocalHost

variable {host : LocalHost} {path text clipboard : String} {d d' : Disk}

theorem writeText_of_copy (kept : host.clipboard = some clipboard)
    (copied : host.copy Disk.storage text d = (.ok (), d')) :
    d.writeText clipboard text = .ok d' := by
  rw [copy_apply kept] at copied
  cases written : d.writeText clipboard text with
  | error e =>
      rw [written] at copied
      cases copied
  | ok d₁ =>
      rw [written] at copied
      cases copied
      rfl

theorem writeText_of_keepFile (kept : keepFile Disk.storage path text d = (.ok (), d')) :
    ∃ made, d.Extends made ∧ made.writeText path text = .ok d' := by
  obtain ⟨made, adds, ⟨⟨e, failed, -⟩, -⟩ | ⟨-, written⟩⟩ := keepFile_cases kept
  · cases failed
  · exact ⟨made, adds.toExtends, written⟩

theorem keepFile_of_setFile (writes : host.readOnly = false)
    (set : host.setFile Disk.storage path text d = (.ok (), d')) :
    keepFile Disk.storage (Path.join host.root path) text d = (.ok (), d') := by
  rw [setFile_apply, writes] at set
  split at set
  case isTrue => cases set
  case isFalse => simpa using set

/-- What is delivered is in the file of the clipboard and under the path. -/
theorem find_of_deliver (kept : host.clipboard = some clipboard) (writes : host.readOnly = false)
    (delivered : host.deliver path text d = (.ok (), d')) :
    d'.find clipboard = .ok (.file text.toUTF8) ∧
      d'.find (Path.join host.root path) = .ok (.file text.toUTF8) := by
  unfold deliver at delivered
  rcases copied : host.copy Disk.storage text d with ⟨_ | _, d₁⟩
  · rw [copied] at delivered
    cases delivered
  · rw [copied] at delivered
    obtain ⟨d₂, extended, written⟩ :=
      writeText_of_keepFile (keepFile_of_setFile writes delivered)
    have held := extended.find (Disk.find_of_writeText (writeText_of_copy kept copied))
    exact ⟨Disk.find_of_writeText_again held written, Disk.find_of_writeText written⟩

end LocalHost

namespace Program

theorem column_eq_leftpad (n : Nat) : column n = String.leftpad 3 ' ' n.repr := by
  simp [column, String.leftpad, List.leftpad, Nat.repr]

/-- The lines tell the order: one with a number for each file, then one for each import that closes a
cycle, then one for each that was skipped. -/
structure Lists (lines : List String) (order : FlatOrder) : Prop where
  length : lines.length = order.names.length + order.cycles.length + order.skipped.length
  file : ∀ n name, order.names[n]? = some name →
    lines[n]? = some (String.leftpad 3 ' ' (n + 1).repr ++ ". " ++ name.text)
  cycle : ∀ n i, order.cycles[n]? = some i → lines[order.names.length + n]? =
    some ("cycle: " ++ i.importer.text ++ " -> " ++ i.dependee.text ++ " (ignored)")
  skipped : ∀ n i, order.skipped[n]? = some i →
    lines[order.names.length + order.cycles.length + n]? =
      some ("skipped: " ++ i.importer.text ++ " imports missing " ++ i.dependee.text)

theorem lists_lines (order : FlatOrder) : Lists (lines order) order where
  length := by simp [lines, Nat.add_assoc]
  file n name found := by
    obtain ⟨bound, rfl⟩ := List.getElem?_eq_some_iff.mp found
    simp [lines, List.getElem?_append_left, bound, column_eq_leftpad]
  cycle n i found := by
    obtain ⟨bound, rfl⟩ := List.getElem?_eq_some_iff.mp found
    simp [lines, List.getElem?_append_right, List.getElem?_append_left, bound]
  skipped n i found := by
    rw [lines, List.getElem?_append_right (by simp)]
    simp [found]

/-- Nothing else tells the same order. -/
theorem Lists.unique {l l' : List String} {order : FlatOrder} (lists : Lists l order)
    (lists' : Lists l' order) : l = l' := by
  apply List.ext_getElem?
  intro n
  -- the place is one of a file, of a cycle or of a skipped import, or it is past the end
  rcases Nat.lt_or_ge n order.names.length with file | past
  · have found := List.getElem?_eq_getElem file
    rw [lists.file _ _ found, lists'.file _ _ found]
  · obtain ⟨n, rfl⟩ := Nat.exists_eq_add_of_le past
    rcases Nat.lt_or_ge n order.cycles.length with cycle | past
    · have found := List.getElem?_eq_getElem cycle
      rw [lists.cycle _ _ found, lists'.cycle _ _ found]
    · obtain ⟨n, rfl⟩ := Nat.exists_eq_add_of_le past
      rw [← Nat.add_assoc]
      rcases Nat.lt_or_ge n order.skipped.length with skipped | past
      · have found := List.getElem?_eq_getElem skipped
        rw [lists.skipped _ _ found, lists'.skipped _ _ found]
      · rw [List.getElem?_eq_none (by rw [lists.length]; omega),
          List.getElem?_eq_none (by rw [lists'.length]; omega)]

end Program

/-- The arguments ask for the action, for the project in `root`. -/
def CommandLine.Asks (arguments : List String) (root : String) (action : Action) : Prop :=
  ∃ verbose, CommandLine.parse arguments = some { verbose, root, action }

namespace Program

open CommandLine (Asks)

variable {arguments : List String} {root event : String} {action : Action} {save : Bool}
  {clipboard : Option String} {d d' : Disk}

theorem run_of_asks (asks : Asks arguments root action) (d : Disk) :
    run Disk.storage arguments d = (ending (perform Disk.storage root action d).1,
      (perform Disk.storage root action d).2) := by
  obtain ⟨verbose, parsed⟩ := asks
  rw [run_apply, parsed]

theorem perform_flatten_apply (print : Bool) :
    perform Disk.storage root (.flatten event print save clipboard) d =
      match flatten Disk.storage root event save clipboard d with
      | (.ok text, d) => (.ok (if print then text else ""), d)
      | (.error e, d) => (.error e, d) := by
  rw [perform, Disk.bind_apply]
  rcases flatten Disk.storage root event save clipboard d with ⟨_ | _, _⟩ <;> rfl

theorem flatten_of_perform {print : Bool} {output : String}
    (performed : perform Disk.storage root (.flatten event print save clipboard) d =
      (.ok output, d')) :
    ∃ text, flatten Disk.storage root event save clipboard d = (.ok text, d') ∧
      output = if print then text else "" := by
  rw [perform_flatten_apply] at performed
  rcases ended : flatten Disk.storage root event save clipboard d with ⟨_ | text, d₁⟩
  · rw [ended] at performed
    cases performed
  · rw [ended] at performed
    cases performed
    exact ⟨text, rfl, rfl⟩

theorem flatten_eq_ok {text : String}
    (ended : flatten Disk.storage root event save clipboard d = (.ok text, d')) :
    ∃ config announced f, inputFrom d root event = .ok (config, announced) ∧
      announced.compilation.flatten config.policy = .ok f ∧ text = f.text ∧
      LocalHost.deliver { root, clipboard, readOnly := !save }
        (config.naming.outputPath f.target) f.text d = (.ok (), d') := by
  rw [flatten_apply] at ended
  rcases loaded : inputFrom d root event with _ | ⟨config, announced⟩
  · rw [loaded] at ended
    cases ended
  · simp only [loaded] at ended
    cases flat : announced.compilation.flatten config.policy with
    | error e =>
        simp only [flat, LocalHost.conclude] at ended
        cases ended
    | ok f =>
        simp only [flat, LocalHost.conclude] at ended
        rcases delivered : LocalHost.deliver { root, clipboard, readOnly := !save }
          (config.naming.outputPath f.target) f.text d with ⟨_ | _, d₁⟩
        · rw [delivered] at ended
          cases ended
        · rw [delivered] at ended
          cases ended
          exact ⟨config, announced, f, rfl, flat, rfl, delivered⟩

theorem flatten_of_order_fails {e : ProgramError}
    (failed : order Disk.storage root event d = (.error e, d')) :
    flatten Disk.storage root event save clipboard d = (.error e, d') := by
  rw [order_apply] at failed
  rw [flatten_apply]
  rcases loaded : inputFrom d root event with _ | ⟨config, announced⟩
  · rw [loaded] at failed
    exact failed
  · simp only [loaded] at failed ⊢
    cases ordered : announced.compilation.order config.policy with
    | error e =>
        simp only [ordered] at failed
        cases failed
        simp only [Compilation.flatten_error_of_order ordered, LocalHost.conclude]
    | ok o =>
        simp only [ordered] at failed
        cases failed

theorem order_of_flatten_ok {config : Config} {announced : CompileEvent} {f : Flattened}
    (loaded : inputFrom d root event = .ok (config, announced))
    (flat : announced.compilation.flatten config.policy = .ok f) :
    order Disk.storage root event d = (.ok (listing f.order), d) := by
  rw [order_apply, loaded]
  simp only [Compilation.order_of_flatten flat]

theorem perform_of_exit_zero (asks : Asks arguments root action)
    (success : (run Disk.storage arguments d).1.exit = 0) :
    ∃ output d', perform Disk.storage root action d = (.ok output, d') := by
  rw [run_of_asks asks] at success
  rcases performed : perform Disk.storage root action d with ⟨e | output, d'⟩
  · rw [performed] at success
    cases success
  · exact ⟨output, d', rfl⟩

theorem perform_of_exit_one (asks : Asks arguments root action)
    (failure : (run Disk.storage arguments d).1.exit = 1) :
    ∃ e d', perform Disk.storage root action d = (.error e, d') := by
  rw [run_of_asks asks] at failure
  rcases performed : perform Disk.storage root action d with ⟨e | output, d'⟩
  · exact ⟨e, d', rfl⟩
  · rw [performed] at failure
    cases failure

theorem output_of_exit_one (failure : (run Disk.storage arguments d).1.exit = 1) :
    (run Disk.storage arguments d).1.output = "" := by
  cases asked : CommandLine.parse arguments with
  | none =>
      rw [run_apply, asked] at failure
      cases failure
  | some invocation =>
      have asks : Asks arguments invocation.root invocation.action := ⟨invocation.verbose, asked⟩
      obtain ⟨e, d', failed⟩ := perform_of_exit_one asks failure
      rw [run_of_asks asks, failed]
      rfl

theorem readFrom_of_write {path : String} {announced : CompileEvent}
    (read : d.readText path = .ok announced.write) :
    CompileEvent.readFrom d path = .ok announced := by
  simp only [CompileEvent.readFrom, read, CompileEvent.parse_write]

/-- A compilation with two cycles and an import of a file that is missing. -/
def knot : Compilation :=
  { Compilation.tangled with
    texts := .ofList [(⟨"A"⟩, "a"), (⟨"B"⟩, "b"), (⟨"C"⟩, "c"), (⟨"D"⟩, "d")] }

def knotText : String :=
  "// File: D\n\nd\n\n// File: B\n\nb\n\n// File: C\n\nc\n\n// File: A\n\na\n\n"

/-- A disk with an event and the configuration that such imports are skipped. -/
def bench : Disk where
  entries := [(["e"], .file (CompileEvent.ofCompilation knot).write.toUTF8),
    (["solflat.toml"], .file "flatten.unresolved_imports = 'skip'".toUTF8)]

def flattenBench : List String := ["flatten", "e", "--stdout", "--clipboard", "C"]

theorem inputFrom_bench :
    inputFrom bench "." "e" = .ok ({ policy := ⟨.skip, .drop⟩ }, .ofCompilation knot) := by
  have found (content : ByteArray) (rest : List (Location × Entry)) :
      Disk.find { entries := (["e"], .file content) :: rest } "e" = .ok (.file content) := rfl
  have announced := readFrom_of_write (Disk.readText_of_find (d := bench) (found _ _))
  have written : bench.readText (Config.path ".") = .ok "flatten.unresolved_imports = 'skip'" :=
    Disk.readText_of_find rfl
  have parsed : Config.parse "flatten.unresolved_imports = 'skip'" =
      some { policy := ⟨.skip, .drop⟩ } := by decide +kernel
  have config : Config.readFrom bench "." = .ok { policy := ⟨.skip, .drop⟩ } := by
    simp only [Config.readFrom, written, parsed]
  rw [inputFrom, config, announced]
  rfl

theorem flatten_knot : knot.flatten ⟨.skip, .drop⟩ = .ok
    { target := ⟨"A"⟩
      order :=
        { names := [⟨"D"⟩, ⟨"B"⟩, ⟨"C"⟩, ⟨"A"⟩]
          cycles := [⟨⟨"D"⟩, ⟨"B"⟩, "./B"⟩, ⟨⟨"C"⟩, ⟨"A"⟩, "./A"⟩]
          skipped := [⟨⟨"A"⟩, ⟨"Gone"⟩, "./Gone"⟩] }
      text := knotText } := by
  have ordered : knot.order ⟨.skip, .drop⟩ = _ := Compilation.order_tangled
  simp only [Compilation.flatten, ordered]
  decide

theorem exit_flattenBench (asks : Asks flattenBench "." (.flatten "e" true true (some "C"))) :
    (run Disk.storage flattenBench bench).1.exit = 0 := by
  obtain ⟨d, delivered⟩ : ∃ d, LocalHost.deliver { root := ".", clipboard := some "C" }
      (OutputNaming.outputPath {} ⟨"A"⟩) knotText bench = (.ok (), d) := ⟨_, rfl⟩
  rw [run_of_asks asks, perform_flatten_apply, flatten_apply, inputFrom_bench]
  simp only [CompileEvent.ofCompilation, flatten_knot, LocalHost.conclude, Bool.not_true, delivered]
  rfl

end Program

end ImportFlattening
