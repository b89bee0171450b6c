import ImportFlattening.CompileEvent
import ImportFlattening.Proofs.JsonText
import ImportFlattening.Status

/-! # Reading back compilations, events and statuses

Each of them is read back from its document, and its document is one that is read back from its
text (`Document.Textual`), so nothing is lost on the way to another program.
-/

namespace ImportFlattening

open Document (Textual)

theorem mapM_map_of_inverse {α β : Type} {write : α → β} {read : β → Option α}
    (inverse : ∀ a, read (write a) = some a) (l : List α) : (l.map write).mapM read = some l := by
  induction l with
  | nil => rfl
  | cons a l ih => simp [inverse, ih]

namespace NameMap

variable {α : Type}

theorem insertEntry_greatest {name : SourceName} {entries : List (SourceName × α)}
    (greatest : ∀ e ∈ entries, e.1 < name) (value : α) :
    insertEntry name value entries = entries ++ [(name, value)] := by
  induction entries with
  | nil => rfl
  | cons entry rest ih =>
      obtain ⟨first, others⟩ := List.forall_mem_cons.mp greatest
      have notLess : ¬ name < entry.1 := fun less =>
        String.lt_irrefl _ (String.lt_trans first less)
      have different : name ≠ entry.1 := by
        rintro rfl
        exact String.lt_irrefl _ first
      rw [insertEntry, if_neg notLess, if_neg different, ih others]
      rfl

-- The entries are put in from the least to the greatest, so each goes to the end.
theorem entries_foldl_insert (done : NameMap α) (rest : List (SourceName × α))
    (sorted : (done.entries ++ rest).Pairwise (fun a b => a.1 < b.1)) :
    (rest.foldl (fun m entry => m.insert entry.1 entry.2) done).entries = done.entries ++ rest := by
  induction rest generalizing done with
  | nil => simp
  | cons entry rest ih =>
      obtain ⟨-, -, between⟩ := List.pairwise_append.mp sorted
      have last : (done.insert entry.1 entry.2).entries = done.entries ++ [entry] :=
        insertEntry_greatest (fun e member => between e member entry (by simp)) entry.2
      rw [List.foldl_cons, ih _ (by simpa [last] using sorted), last]
      simp

theorem ofList_entries (m : NameMap α) : ofList m.entries = m := by
  have same : (ofList m.entries).entries = m.entries :=
    entries_foldl_insert empty m.entries m.sorted
  cases m
  cases made : ofList _
  simp_all

theorem ofDocument?_toDocument {write : α → Document} {read : Document → Option α}
    (inverse : ∀ a, read (write a) = some a) (m : NameMap α) :
    ofDocument? read (m.toDocument write) = some m := by
  simp only [toDocument, Document.record, ofDocument?, List.map_map]
  rw [mapM_map_of_inverse (fun e => by simp [inverse])]
  exact congrArg some (ofList_entries m)

theorem textual_toDocument {write : α → Document} (textual : ∀ a, (write a).Textual)
    (m : NameMap α) : (m.toDocument write).Textual := by
  apply Textual.record
  intro member among
  obtain ⟨entry, -, rfl⟩ := List.mem_map.mp among
  exact textual entry.2

end NameMap

namespace Document

@[simp] theorem fields_record (format : Format) (names : List String)
    (members : List (String × Document)) :
    (record members).fields format names =
      names.mapM (fieldOf (members.map fun m => (some m.1, m.2))) := by
  simp [record, fields]

@[simp] theorem text?_text (s : String) : (Document.text s).text? = some s := rfl

@[simp] theorem optional_none {α : Type} (read : Document → Option α) :
    optional read none = some none := rfl

@[simp] theorem optional_text {α : Type} (read : Document → Option α) (s : String) :
    optional read (some (.text s)) = (read (.text s)).map some := rfl

theorem textual_textMember (name : String) (text : Option String) :
    ∀ m ∈ textMember name text, m.2.Textual := by
  intro m among
  obtain ⟨t, -, rfl⟩ := List.mem_map.mp among
  exact .text t

end Document

namespace SyntaxNode

theorem ofDocument?_toDocument (format : Format) (node : SyntaxNode) :
    ofDocument? format node.toDocument = some node := by
  obtain ⟨kind, file⟩ := node
  cases file with
  | none => rfl
  | some file => rfl

theorem textual_toDocument (node : SyntaxNode) : node.toDocument.Textual := by
  apply Textual.record
  exact List.forall_mem_cons.mpr ⟨.text _, Document.textual_textMember "file" node.file⟩

end SyntaxNode

namespace SourceUnit

theorem ofDocument?_toDocument (format : Format) (unit : SourceUnit) :
    ofDocument? format unit.toDocument = some unit := by
  have nodes : Document.items? (SyntaxNode.ofDocument? format)
      (.array (unit.nodes.map SyntaxNode.toDocument)) = some unit.nodes :=
    mapM_map_of_inverse (SyntaxNode.ofDocument?_toDocument format) unit.nodes
  calc ofDocument? format unit.toDocument
    _ = (Document.items? (SyntaxNode.ofDocument? format)
          (.array (unit.nodes.map SyntaxNode.toDocument)) >>= fun nodes => some ⟨nodes⟩) := rfl
    _ = some unit := by rw [nodes]; rfl

theorem textual_toDocument (unit : SourceUnit) : unit.toDocument.Textual := by
  have nodes : (Document.array (unit.nodes.map SyntaxNode.toDocument)).Textual := by
    apply Textual.array
    intro d among
    obtain ⟨node, -, rfl⟩ := List.mem_map.mp among
    exact node.textual_toDocument
  have ast : (Document.record [("nodes", .array (unit.nodes.map SyntaxNode.toDocument))]).Textual :=
    .record (by simpa using nodes)
  exact .record (by simpa using ast)

end SourceUnit

theorem textOfDocument?_textToDocument (format : Format) (text : String) :
    textOfDocument? format (textToDocument text) = some text := rfl

theorem textual_textToDocument (text : String) : (textToDocument text).Textual :=
  .record (by simpa using Textual.text text)

namespace Compilation

theorem texts_read_back (format : Format) (c : Compilation) :
    NameMap.ofDocument? (textOfDocument? format) (c.texts.toDocument textToDocument) =
      some c.texts :=
  NameMap.ofDocument?_toDocument (textOfDocument?_textToDocument format) c.texts

theorem units_read_back (format : Format) (c : Compilation) :
    NameMap.ofDocument? (SourceUnit.ofDocument? format) (c.units.toDocument SourceUnit.toDocument) =
      some c.units :=
  NameMap.ofDocument?_toDocument (SourceUnit.ofDocument?_toDocument format) c.units

theorem ofDocument?_toDocument (format : Format) (c : Compilation) :
    ofDocument? format c.toDocument = some c := by
  have texts := c.texts_read_back format
  have units := c.units_read_back format
  obtain ⟨target, _, _, version⟩ := c
  cases version <;>
    simp [ofDocument?, toDocument, Document.fieldOf, Document.valuesOf, Document.textMember,
      SourceName.toDocument, SourceName.ofDocument?, texts, units]

theorem textual_texts (c : Compilation) : (c.texts.toDocument textToDocument).Textual :=
  NameMap.textual_toDocument textual_textToDocument c.texts

theorem textual_units (c : Compilation) : (c.units.toDocument SourceUnit.toDocument).Textual :=
  NameMap.textual_toDocument SourceUnit.textual_toDocument c.units

theorem textual_toDocument (c : Compilation) : c.toDocument.Textual := by
  apply Textual.record
  simp only [List.forall_mem_append, List.forall_mem_cons]
  exact ⟨⟨.text c.target.text, c.textual_texts, c.textual_units, by simp⟩,
    Document.textual_textMember _ c.languageVersion⟩

end Compilation

namespace CompileEvent

theorem ofDocument?_toDocument (event : CompileEvent) :
    ofDocument? event.toDocument = some event := by
  have texts := event.compilation.texts_read_back .json
  have units := event.compilation.units_read_back .json
  obtain ⟨file, target, _, _, version⟩ := event
  cases version <;>
    simp [ofDocument?, toDocument, Document.fieldOf, Document.valuesOf, Document.textMember,
      Document.fieldD, SourceName.toDocument, SourceName.ofDocument?, texts, units]

theorem textual_toDocument (event : CompileEvent) : event.toDocument.Textual := by
  have source : (Document.record [("target", event.compilation.target.toDocument),
      ("sources", event.compilation.texts.toDocument textToDocument)]).Textual := by
    apply Textual.record
    simp only [List.forall_mem_cons]
    exact ⟨.text _, event.compilation.textual_texts, by simp⟩
  have data : (Document.record
      [("sources", event.compilation.units.toDocument SourceUnit.toDocument)]).Textual :=
    .record (by simpa using event.compilation.textual_units)
  apply Textual.record
  simp only [List.forall_mem_append, List.forall_mem_cons]
  exact ⟨⟨⟨.text event.file, source, by simp⟩,
    Document.textual_textMember _ event.compilation.languageVersion⟩, data, by simp⟩

theorem parse_write (event : CompileEvent) : parse event.write = some event := by
  rw [parse, write, Json.parse_write event.textual_toDocument]
  exact event.ofDocument?_toDocument

end CompileEvent

theorem StatusKey.variant?_name (key : StatusKey) :
    Document.variant? .json named (.text key.name) = some key := by
  cases key <;> rfl

theorem StatusTone.variant?_name (tone : StatusTone) :
    Document.variant? .json named (.text tone.name) = some tone := by
  cases tone <;> rfl

namespace Status

theorem ofDocument?_toDocument (status : Status) : ofDocument? status.toDocument = some status := by
  obtain ⟨key, tone, title⟩ := status
  cases tone <;> cases title <;>
    simp [ofDocument?, toDocument, Document.fieldOf, Document.valuesOf, Document.textMember,
      StatusKey.variant?_name, StatusTone.variant?_name]

theorem textual_toDocument (status : Status) : status.toDocument.Textual := by
  apply Textual.record
  simp only [List.forall_mem_append, List.forall_mem_cons]
  exact ⟨⟨.text status.key.name, Document.textual_textMember _ _⟩,
    Document.textual_textMember _ status.title⟩

end Status

/-- A compilation that is sent as an event arrives as it was, and so does every event, compilation,
source unit and status, whatever its texts hold. -/
theorem wire_values_read_back :
    (∀ c : Compilation,
      (CompileEvent.parse (CompileEvent.ofCompilation c).write).map CompileEvent.compilation =
        some c) ∧
    (∀ event : CompileEvent, CompileEvent.parse event.write = some event) ∧
    (∀ c : Compilation,
      (Json.parse (Json.write c.toDocument)).bind (Compilation.ofDocument? .json) = some c) ∧
    (∀ unit : SourceUnit,
      (Json.parse (Json.write unit.toDocument)).bind (SourceUnit.ofDocument? .json) = some unit) ∧
    ∀ status : Status,
      (Json.parse (Json.write status.toDocument)).bind Status.ofDocument? = some status := by
  refine ⟨?_, CompileEvent.parse_write, ?_, ?_, ?_⟩
  · intro c
    rw [CompileEvent.parse_write]
    rfl
  · intro c
    rw [Json.parse_write c.textual_toDocument]
    exact c.ofDocument?_toDocument .json
  · intro unit
    rw [Json.parse_write unit.textual_toDocument]
    exact unit.ofDocument?_toDocument .json
  · intro status
    rw [Json.parse_write status.textual_toDocument]
    exact status.ofDocument?_toDocument

end ImportFlattening
