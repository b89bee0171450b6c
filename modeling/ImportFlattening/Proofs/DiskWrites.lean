import ImportFlattening.Disk

/-! # What stays on a disk

No request takes a directory away: a file is written only where there is none, and a directory is
made only where there is nothing. So a path that leads somewhere still leads there afterwards
(`Disk.KeepsDirectories.locate`), a text that has been written can be read
(`Disk.find_of_writeText`), and it outlasts the making of directories and the writing of the same
text elsewhere. The directories that are made are those that the paths lead to
(`Disk.makeFirst_adds`).
-/

namespace ImportFlattening

theorem foldlM_ok_mono {ε α β : Type} {f g : β → α → Except ε β}
    (mono : ∀ b a b', f b a = .ok b' → g b a = .ok b') {l : List α} {b b' : β}
    (ended : l.foldlM f b = .ok b') : l.foldlM g b = .ok b' := by
  induction l generalizing b with
  | nil => exact ended
  | cons a l ih =>
      simp only [List.foldlM_cons, bind, Except.bind] at ended ⊢
      cases next : f b a with
      | error e => simp [next] at ended
      | ok c =>
          simp only [next] at ended
          simp only [mono b a c next]
          exact ih ended

theorem foldlM_append_ok_iff {ε α β : Type} {f : β → α → Except ε β} {left right : List α}
    {b b' : β} :
    (left ++ right).foldlM f b = .ok b' ↔
      ∃ middle, left.foldlM f b = .ok middle ∧ right.foldlM f middle = .ok b' := by
  rw [List.foldlM_append]
  cases left.foldlM f b with
  | error e => simp [bind, Except.bind]
  | ok middle => simp [bind, Except.bind]

namespace Disk

variable {d d' : Disk} {location : Location} {path text : String}

section Entries

theorem lookup_filter_ne {l : Location} (other : l ≠ location) (entries : List (Location × Entry)) :
    (entries.filter (·.1 ≠ location)).lookup l = entries.lookup l := by
  induction entries with
  | nil => rfl
  | cons e entries ih =>
      by_cases same : e.1 = location
      · have skipped : (l == e.1) = false := by simpa [same] using other
        rw [List.filter_cons_of_neg (by simpa using same), ih, List.lookup_cons, skipped]
      · rw [List.filter_cons_of_pos (by simpa using same), List.lookup_cons, List.lookup_cons, ih]

theorem entry?_put_self (below : location ≠ []) (entry : Entry) :
    Disk.entry? (d.put location entry) location = some entry := by
  simp [put, entry?, below]

theorem entry?_put_other {l : Location} (other : l ≠ location) (entry : Entry) :
    Disk.entry? (d.put location entry) l = d.entry? l := by
  have skipped : (l == location) = false := by simpa using other
  simp only [put, entry?, List.lookup_cons, skipped, lookup_filter_ne other]

theorem ne_root_of_not_directory (free : d.entry? location ≠ some .directory) : location ≠ [] := by
  rintro rfl
  exact free rfl

end Entries

/-- All that was there is there still. -/
structure Extends (d d' : Disk) : Prop where
  workingDirectory : d'.workingDirectory = d.workingDirectory
  entry : ∀ l e, d.entry? l = some e → d'.entry? l = some e

structure KeepsDirectories (d d' : Disk) : Prop where
  workingDirectory : d'.workingDirectory = d.workingDirectory
  directory : ∀ l, d.entry? l = some .directory → d'.entry? l = some .directory

theorem Extends.refl (d : Disk) : d.Extends d := ⟨rfl, fun _ _ there => there⟩

theorem Extends.trans {d₁ d₂ d₃ : Disk} (first : d₁.Extends d₂) (second : d₂.Extends d₃) :
    d₁.Extends d₃ :=
  ⟨second.workingDirectory.trans first.workingDirectory,
    fun l e there => second.entry l e (first.entry l e there)⟩

theorem KeepsDirectories.trans {d₁ d₂ d₃ : Disk} (first : d₁.KeepsDirectories d₂)
    (second : d₂.KeepsDirectories d₃) : d₁.KeepsDirectories d₃ :=
  ⟨second.workingDirectory.trans first.workingDirectory,
    fun l there => second.directory l (first.directory l there)⟩

theorem Extends.keepsDirectories (extended : d.Extends d') : d.KeepsDirectories d' :=
  ⟨extended.workingDirectory, fun l there => extended.entry l .directory there⟩

theorem extends_put (free : d.entry? location = none) (entry : Entry) :
    d.Extends (d.put location entry) := by
  refine ⟨rfl, fun l e there => ?_⟩
  have other : l ≠ location := by
    rintro rfl
    rw [free] at there
    cases there
  rw [entry?_put_other other, there]

theorem keepsDirectories_put (free : d.entry? location ≠ some .directory) (entry : Entry) :
    d.KeepsDirectories (d.put location entry) := by
  refine ⟨rfl, fun l there => ?_⟩
  have other : l ≠ location := by
    rintro rfl
    exact free there
  rw [entry?_put_other other, there]

section Paths

theorem directory_of_follow {segment : String} {next : Location}
    (followed : d.follow location segment = .ok next) : d.entry? location = some .directory := by
  unfold Disk.follow at followed
  split at followed
  case h_1 => cases followed
  case h_2 => cases followed
  case h_3 there => exact there

theorem KeepsDirectories.follow (keeps : d.KeepsDirectories d') {segment : String}
    {next : Location} (followed : d.follow location segment = .ok next) :
    d'.follow location segment = .ok next := by
  have there := directory_of_follow followed
  simp only [Disk.follow, there] at followed
  simpa only [Disk.follow, keeps.directory location there] using followed

theorem locate_eq_ok_iff :
    d.locate path = .ok location ↔
      '\x00' ∉ path.toList ∧ path ≠ "" ∧ path.utf8ByteSize < pathLimit ∧
        (Text.pieces '/' path).foldlM d.follow
          (if Text.isRooted path then [] else d.workingDirectory) = .ok location := by
  unfold Disk.locate
  by_cases null : '\x00' ∈ path.toList
  · simp [null]
  · by_cases empty : path = ""
    · simp [empty]
    · by_cases long : pathLimit ≤ path.utf8ByteSize
      · simp [null, empty, long, Nat.not_lt.mpr long]
      · simp [null, empty, long, Nat.lt_of_not_le long]

theorem KeepsDirectories.locate (keeps : d.KeepsDirectories d')
    (located : d.locate path = .ok location) : d'.locate path = .ok location := by
  obtain ⟨noNull, nonempty, short, walked⟩ := locate_eq_ok_iff.mp located
  refine locate_eq_ok_iff.mpr ⟨noNull, nonempty, short, ?_⟩
  rw [keeps.workingDirectory]
  exact foldlM_ok_mono (fun _ _ _ followed => keeps.follow followed) walked

theorem find_eq_ok_iff {entry : Entry} :
    d.find path = .ok entry ↔
      ∃ location, d.locate path = .ok location ∧ d.entry? location = some entry := by
  unfold find
  cases located : d.locate path with
  | error e => simp [bind, Except.bind]
  | ok location =>
      cases there : d.entry? location with
      | none => simp [bind, Except.bind, there]
      | some e => simp [bind, Except.bind, there]

theorem Extends.find (extended : d.Extends d') {entry : Entry} (found : d.find path = .ok entry) :
    d'.find path = .ok entry := by
  obtain ⟨location, located, there⟩ := find_eq_ok_iff.mp found
  exact find_eq_ok_iff.mpr
    ⟨location, extended.keepsDirectories.locate located, extended.entry location entry there⟩

theorem readText_of_find (found : d.find path = .ok (.file text.toUTF8)) :
    d.readText path = .ok text := by
  have decoded : String.fromUTF8? text.toUTF8 = some text := by
    rw [String.fromUTF8?, String.toUTF8_eq_toByteArray, dif_pos text.isValidUTF8]
    rfl
  simp only [readText, found, bind, Except.bind, decoded]

end Paths

section Directories

variable {d₁ d₂ : Disk} {among : String → Prop}

/-- The disk has become the other one by the making of directories that such paths lead to. -/
structure AddsDirectories (among : String → Prop) (d d' : Disk) : Prop extends d.Extends d' where
  added : ∀ l, d'.entry? l ≠ d.entry? l →
    d'.entry? l = some .directory ∧ ∃ path, among path ∧ d'.locate path = .ok l

theorem Extends.vacant (extended : d.Extends d') (changed : d'.entry? location ≠ d.entry? location) :
    d.entry? location = none := by
  cases there : d.entry? location with
  | none => rfl
  | some e =>
      rw [there] at changed
      exact absurd (extended.entry location e there) changed

theorem AddsDirectories.refl (d : Disk) : AddsDirectories among d d :=
  ⟨.refl d, fun _ changed => absurd rfl changed⟩

theorem AddsDirectories.mono {wider : String → Prop} (adds : AddsDirectories among d d')
    (members : ∀ path, among path → wider path) : AddsDirectories wider d d' := by
  refine ⟨adds.toExtends, fun l changed => ?_⟩
  obtain ⟨made, path, member, located⟩ := adds.added l changed
  exact ⟨made, path, members path member, located⟩

theorem AddsDirectories.trans (first : AddsDirectories among d d₁)
    (second : AddsDirectories among d₁ d₂) : AddsDirectories among d d₂ := by
  refine ⟨first.toExtends.trans second.toExtends, ?_⟩
  intro l changed
  by_cases same : d₁.entry? l = d.entry? l
  · rw [← same] at changed
    exact second.added l changed
  · obtain ⟨made, path, member, located⟩ := first.added l same
    exact ⟨second.entry l _ made, path, member, second.keepsDirectories.locate located⟩

theorem makeDirectory_eq_ok_iff :
    d.makeDirectory path = .ok d' ↔ ∃ location, d.locate path = .ok location ∧
      d.entry? location = none ∧ d' = d.put location .directory := by
  unfold makeDirectory
  cases located : d.locate path with
  | error e => simp [bind, Except.bind]
  | ok location =>
      simp only [bind, Except.bind]
      split
      case h_1 there => simp [there]
      case h_2 free => simp [free, eq_comm]

theorem makeDirectory_adds (member : among path) (made : d.makeDirectory path = .ok d') :
    AddsDirectories among d d' := by
  obtain ⟨location, located, free, rfl⟩ := makeDirectory_eq_ok_iff.mp made
  have extended := extends_put free .directory
  refine ⟨extended, ?_⟩
  intro l changed
  obtain rfl : l = location :=
    Decidable.byContradiction fun other => changed (entry?_put_other other _)
  have unmade : d.entry? l ≠ some .directory := by simp [free]
  exact ⟨entry?_put_self (ne_root_of_not_directory unmade) _, path, member,
    extended.keepsDirectories.locate located⟩

theorem ensureDirectory_adds (member : among path) (ensured : d.ensureDirectory path = .ok d') :
    AddsDirectories among d d' := by
  unfold ensureDirectory at ensured
  split at ensured
  case h_1 made =>
    cases ensured
    exact makeDirectory_adds member made
  case h_2 =>
    split at ensured
    case isTrue =>
      cases ensured
      exact .refl d
    case isFalse => cases ensured

theorem makeFirst_adds (d : Disk) {paths : List String} (members : ∀ path ∈ paths, among path) :
    AddsDirectories among d (d.makeFirst paths).2 := by
  fun_induction makeFirst d paths with
  | case1 => exact .refl d
  | case2 => exact .refl d
  | case3 path above _ made ensured =>
      exact ensureDirectory_adds (members path List.mem_cons_self) ensured
  | case4 path above _ _ e made failed ih =>
      rw [failed] at ih
      exact ih fun p higher => members p (List.mem_cons_of_mem _ higher)
  | case5 path above _ _ _ made reached complete ensured ih =>
      rw [reached] at ih
      exact (ih fun p higher => members p (List.mem_cons_of_mem _ higher)).trans
        (ensureDirectory_adds (members path List.mem_cons_self) ensured)
  | case6 path above _ _ _ made reached e failed ih =>
      rw [reached] at ih
      exact ih fun p higher => members p (List.mem_cons_of_mem _ higher)
  | case7 => exact .refl d

end Directories

section Writes

theorem writeText_eq_ok_iff :
    d.writeText path text = .ok d' ↔ ∃ location, d.locate path = .ok location ∧
      d.entry? location ≠ some .directory ∧ d' = d.put location (.file text.toUTF8) := by
  unfold writeText writeBytes
  cases located : d.locate path with
  | error e => simp [bind, Except.bind]
  | ok location =>
      simp only [bind, Except.bind]
      split
      case h_1 there => simp [there]
      case h_2 free =>
        constructor
        · intro ended
          cases ended
          exact ⟨location, rfl, free, rfl⟩
        · rintro ⟨_, same, -, rfl⟩
          cases same
          rfl

theorem find_of_writeText (written : d.writeText path text = .ok d') :
    d'.find path = .ok (.file text.toUTF8) := by
  obtain ⟨location, located, free, rfl⟩ := writeText_eq_ok_iff.mp written
  exact find_eq_ok_iff.mpr ⟨location, (keepsDirectories_put free _).locate located,
    entry?_put_self (ne_root_of_not_directory free) _⟩

/-- A file that holds the text which is written, be it at the same place or elsewhere, holds it
afterwards. -/
theorem find_of_writeText_again {other : String} (held : d.find path = .ok (.file text.toUTF8))
    (written : d.writeText other text = .ok d') : d'.find path = .ok (.file text.toUTF8) := by
  obtain ⟨location, located, there⟩ := find_eq_ok_iff.mp held
  obtain ⟨location', -, free, rfl⟩ := writeText_eq_ok_iff.mp written
  refine find_eq_ok_iff.mpr ⟨location, (keepsDirectories_put free _).locate located, ?_⟩
  by_cases same : location = location'
  · rw [same]
    exact entry?_put_self (ne_root_of_not_directory free) _
  · rw [entry?_put_other same, there]

end Writes

end Disk

end ImportFlattening
