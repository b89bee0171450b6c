import ImportFlattening.SourceName

/-! # Maps from source names

A map is the list of its entries in increasing order of names, so that two maps with the same
entries are equal and the order in which they were filled leaves no trace.
-/

namespace ImportFlattening

/-- A finite map keyed by source names. -/
structure NameMap (α : Type) where
  entries : List (SourceName × α)
  sorted : entries.Pairwise (fun a b => a.1 < b.1)

namespace NameMap

variable {α : Type}

instance [DecidableEq α] : DecidableEq (NameMap α) := fun a b =>
  if h : a.entries = b.entries then
    isTrue (by cases a; cases b; simp_all)
  else
    isFalse (fun e => h (e ▸ rfl))

def empty : NameMap α := ⟨[], .nil⟩

instance : EmptyCollection (NameMap α) := ⟨empty⟩

instance : Inhabited (NameMap α) := ⟨empty⟩

/-- The names that have an entry, in increasing order. -/
def names (m : NameMap α) : List SourceName := m.entries.map Prod.fst

def size (m : NameMap α) : Nat := m.entries.length

def get? (m : NameMap α) (name : SourceName) : Option α :=
  (m.entries.find? (·.1 = name)).map Prod.snd

theorem mem_names_of_get? {m : NameMap α} {name : SourceName} {value : α}
    (h : m.get? name = some value) : name ∈ m.names := by
  obtain ⟨entry, found, -⟩ := Option.map_eq_some_iff.mp h
  have same : entry.1 = name := by simpa using List.find?_some found
  exact same ▸ List.mem_map_of_mem (List.mem_of_find?_eq_some found)

def contains (m : NameMap α) (name : SourceName) : Bool := (m.get? name).isSome

/-- Put an entry in its place in a sorted list, over an entry of the same name. -/
def insertEntry (name : SourceName) (value : α) :
    List (SourceName × α) → List (SourceName × α)
  | [] => [(name, value)]
  | entry :: rest =>
    if name < entry.1 then (name, value) :: entry :: rest
    else if name = entry.1 then (name, value) :: rest
    else entry :: insertEntry name value rest

theorem eq_of_not_lt {a b : SourceName} (hab : ¬ a < b) (hba : ¬ b < a) : a = b := by
  cases a with
  | mk s =>
    cases b with
    | mk t => exact congrArg SourceName.mk (String.le_antisymm hba hab)

theorem mem_insertEntry {name : SourceName} {value : α} {e : SourceName × α} :
    ∀ {entries}, e ∈ insertEntry name value entries → e = (name, value) ∨ e ∈ entries
  | [], h => by simpa [insertEntry] using h
  | entry :: rest, h => by
    unfold insertEntry at h
    split at h
    · simpa using h
    · split at h
      · rcases List.mem_cons.mp h with h | h
        · exact Or.inl h
        · exact Or.inr (List.mem_cons_of_mem _ h)
      · rcases List.mem_cons.mp h with h | h
        · exact Or.inr (h ▸ List.mem_cons_self)
        · exact (mem_insertEntry h).imp_right (List.mem_cons_of_mem _)

theorem sorted_insertEntry (name : SourceName) (value : α) :
    ∀ {entries : List (SourceName × α)}, entries.Pairwise (fun a b => a.1 < b.1) →
      (insertEntry name value entries).Pairwise (fun a b => a.1 < b.1)
  | [], _ => by simp [insertEntry]
  | entry :: rest, h => by
    have ⟨head, tail⟩ := List.pairwise_cons.mp h
    unfold insertEntry
    split
    · rename_i lt
      refine List.pairwise_cons.mpr ⟨fun e he => ?_, h⟩
      rcases List.mem_cons.mp he with rfl | he
      · exact lt
      · exact String.lt_trans lt (head e he)
    · split
      · rename_i eq
        subst eq
        exact List.pairwise_cons.mpr ⟨head, tail⟩
      · rename_i notLt ne
        refine List.pairwise_cons.mpr ⟨fun e he => ?_, sorted_insertEntry name value tail⟩
        rcases mem_insertEntry he with rfl | he
        · exact Decidable.byContradiction fun notGt => ne (eq_of_not_lt notLt notGt)
        · exact head e he

/-- Store `value` for `name`, in place of an earlier value. -/
def insert (m : NameMap α) (name : SourceName) (value : α) : NameMap α :=
  ⟨insertEntry name value m.entries, sorted_insertEntry name value m.sorted⟩

/-- The map of a list of entries; of two entries with one name the later counts. -/
def ofList (entries : List (SourceName × α)) : NameMap α :=
  entries.foldl (fun m entry => m.insert entry.1 entry.2) empty

end NameMap

end ImportFlattening
