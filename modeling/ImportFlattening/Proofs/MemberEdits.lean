import ImportFlattening.CompileEvent
import ImportFlattening.Proofs.JsonGrammar
import Mathlib.Logic.Relation

/-! # Edits that a reader does not notice

An event is a structure of structures. `Shape` says where in a document the structures stand, and an
`Edit` changes a document at one of them: it reorders the members, or puts in a member that is no
field. No such edit is noticed (`CompileEvent.ofDocument?_edit`), so no run of them is, and neither is
the way in which the edited document is spelled. What is put in may be any document, but its name has
to be a text: a name with an unpaired surrogate is refused wherever a field is expected.
-/

namespace ImportFlattening

open Relation (ReflTransGen)

/-- Where structures stand in a document. -/
inductive Shape where
  /-- A value without structures. -/
  | leaf
  /-- A structure with these fields. -/
  | structure (fields : List (String × Shape))
  /-- An object with a value for each name. -/
  | map (values : Shape)
  | list (items : Shape)

/-- One document becomes the other by a change to the members of one structure in it. -/
inductive Edit : Shape → Document → Document → Prop where
  | reorder {fields : List (String × Shape)} {members members' : List (Option String × Document)}
      (perm : members.Perm members') :
      Edit (.structure fields) (.object members) (.object members')
  | insert {fields : List (String × Shape)} {before after : List (Option String × Document)}
      {name : String} {value : Document} (unknown : name ∉ fields.map Prod.fst) :
      Edit (.structure fields) (.object (before ++ after))
        (.object (before ++ (some name, value) :: after))
  | field {fields : List (String × Shape)} {before after : List (Option String × Document)}
      {name : String} {shape : Shape} {value value' : Document} (known : (name, shape) ∈ fields)
      (inside : Edit shape value value') :
      Edit (.structure fields) (.object (before ++ (some name, value) :: after))
        (.object (before ++ (some name, value') :: after))
  | entry {shape : Shape} {before after : List (Option String × Document)} {name : Option String}
      {value value' : Document} (inside : Edit shape value value') :
      Edit (.map shape) (.object (before ++ (name, value) :: after))
        (.object (before ++ (name, value') :: after))
  | item {shape : Shape} {before after : List Document} {value value' : Document}
      (inside : Edit shape value value') :
      Edit (.list shape) (.array (before ++ value :: after)) (.array (before ++ value' :: after))

/-- The reader gives the same for a document before and after an edit. -/
def Overlooks {α : Type} (read : Document → Option α) (shape : Shape) : Prop :=
  ∀ {d d' : Document}, Edit shape d d' → read d' = read d

theorem mapM_congr {α β : Type} {f g : α → Option β} {l : List α} (same : ∀ a ∈ l, f a = g a) :
    l.mapM f = l.mapM g := by
  induction l with
  | nil => rfl
  | cons a l ih =>
      obtain ⟨first, others⟩ := List.forall_mem_cons.mp same
      rw [List.mapM_cons, List.mapM_cons, first, ih others]

theorem mapM_eq_none {α β : Type} {f : α → Option β} {a : α} {l : List α} (among : a ∈ l)
    (fails : f a = none) : l.mapM f = none := by
  induction l with
  | nil => cases among
  | cons b l ih =>
      rcases List.mem_cons.mp among with rfl | later
      · simp [fails]
      · simp [ih later]

namespace Document

section Fields

variable {before after : List (Option String × Document)} {name : String}

theorem valuesOf_append (front back : List (Option String × Document)) (name : String) :
    valuesOf (front ++ back) name = valuesOf front name ++ valuesOf back name :=
  List.filterMap_append

theorem valuesOf_cons_same (value : Document) (rest : List (Option String × Document)) :
    valuesOf ((some name, value) :: rest) name = value :: valuesOf rest name := by
  simp [valuesOf]

theorem valuesOf_cons_other {other : String} (different : other ≠ name) (value : Document)
    (rest : List (Option String × Document)) :
    valuesOf ((some other, value) :: rest) name = valuesOf rest name := by
  simp [valuesOf, different]

theorem fieldOf_perm {members members' : List (Option String × Document)}
    (perm : members.Perm members') (name : String) : fieldOf members' name = fieldOf members name := by
  have values : (valuesOf members name).Perm (valuesOf members' name) := perm.filterMap _
  unfold fieldOf
  generalize valuesOf members name = old at values ⊢
  match old with
  | [] => rw [values.nil_eq]
  | [value] => rw [List.perm_singleton.mp values.symm]
  | _ :: _ :: _ =>
      have length := values.length_eq
      generalize valuesOf members' name = new at length
      match new with
      | _ :: _ :: _ => rfl

theorem fieldOf_other {other : String} (different : other ≠ name) (value : Document) :
    fieldOf (before ++ (some other, value) :: after) name = fieldOf (before ++ after) name := by
  simp only [fieldOf, valuesOf_append, valuesOf_cons_other different]

/-- The value of a field that is written can be exchanged, unless it is written twice. -/
theorem fieldOf_same (before after : List (Option String × Document)) (name : String) :
    (∀ value, fieldOf (before ++ (some name, value) :: after) name = some (some value)) ∨
      ∀ value, fieldOf (before ++ (some name, value) :: after) name = none := by
  simp only [fieldOf, valuesOf_append, valuesOf_cons_same]
  match valuesOf before name, valuesOf after name with
  | [], [] => exact .inl fun value => rfl
  | [], _ :: _ => exact .inr fun value => rfl
  | [_], _ => exact .inr fun value => rfl
  | _ :: _ :: _, _ => exact .inr fun value => rfl

variable {format : Format} {names : List String}

theorem all_isSome_cons (value : Document) :
    (before ++ (some name, value) :: after).all (·.1.isSome) =
      (before ++ after).all (·.1.isSome) := by
  simp

theorem fields_perm {members members' : List (Option String × Document)}
    (perm : members.Perm members') :
    (object members').fields format names = (object members).fields format names := by
  have fields : fieldOf members' = fieldOf members := funext (fieldOf_perm perm)
  have texts : members'.all (·.1.isSome) = members.all (·.1.isSome) := by
    rw [Bool.eq_iff_iff, List.all_eq_true, List.all_eq_true]
    exact forall_congr' fun m => imp_congr_left perm.mem_iff.symm
  simp only [Document.fields, fields, texts]

theorem fields_insert (unknown : name ∉ names) (value : Document) :
    (object (before ++ (some name, value) :: after)).fields format names =
      (object (before ++ after)).fields format names := by
  have known : names.mapM (fieldOf (before ++ (some name, value) :: after)) =
      names.mapM (fieldOf (before ++ after)) := by
    apply mapM_congr
    intro field among
    apply fieldOf_other
    rintro rfl
    exact unknown among
  simp only [Document.fields, known, all_isSome_cons]

/-- The fields of a structure when the one called `name` has the given value. -/
def withField (name : String) (others : String → Option (Option Document)) (value : Document)
    (field : String) : Option (Option Document) :=
  if field = name then some (some value) else others field

theorem fields_exchange (format : Format) (before after : List (Option String × Document))
    (known : name ∈ names) :
    (∃ others, ∀ value, (object (before ++ (some name, value) :: after)).fields format names =
      names.mapM (withField name others value)) ∨
    ∀ value, (object (before ++ (some name, value) :: after)).fields format names = none := by
  simp only [Document.fields, all_isSome_cons]
  by_cases texts : (before ++ after).all (·.1.isSome)
  case neg => exact .inr fun value => if_neg texts
  simp only [texts, if_true]
  rcases fieldOf_same before after name with once | twice
  · refine .inl ⟨fieldOf (before ++ after), fun value => mapM_congr fun field _ => ?_⟩
    by_cases same : field = name
    · rw [withField, if_pos same, same, once value]
    · rw [withField, if_neg same, fieldOf_other (Ne.symm same)]
  · exact .inr fun value => mapM_eq_none known (twice value)

end Fields

end Document

section Readers

variable {α : Type}

theorem overlooks_list {read : Document → Option α} {shape : Shape}
    (overlooks : Overlooks read shape) : Overlooks (Document.items? read) (.list shape) := by
  intro d d' edit
  cases edit with
  | item inside => simp only [Document.items?, List.mapM_append, List.mapM_cons, overlooks inside]

theorem overlooks_map {read : Document → Option α} {shape : Shape}
    (overlooks : Overlooks read shape) : Overlooks (NameMap.ofDocument? read) (.map shape) := by
  intro d d' edit
  cases edit with
  | entry inside =>
      simp only [NameMap.ofDocument?, List.mapM_append, List.mapM_cons, overlooks inside]

/-- A reader that goes by the fields of a structure overlooks every edit if it overlooks those
inside of its fields. -/
theorem overlooks_structure {read : Document → Option α} {format : Format}
    {fields : List (String × Shape)} {make : List (Option Document) → Option α}
    (reads : ∀ d, read d = (d.fields format (fields.map Prod.fst)).bind make)
    (nested : ∀ {name shape value value'}, (name, shape) ∈ fields → Edit shape value value' →
      ∀ others, ((fields.map Prod.fst).mapM (Document.withField name others value')).bind make =
        ((fields.map Prod.fst).mapM (Document.withField name others value)).bind make) :
    Overlooks read (.structure fields) := by
  intro d d' edit
  rw [reads, reads]
  cases edit with
  | reorder perm => rw [Document.fields_perm perm]
  | insert unknown => rw [Document.fields_insert unknown]
  | @field _ before after name shape value value' known inside =>
      have among : name ∈ fields.map Prod.fst := List.mem_map_of_mem known
      rcases Document.fields_exchange format before after among with ⟨others, once⟩ | twice
      · rw [once, once, nested known inside]
      · rw [twice, twice]

end Readers

namespace SyntaxNode

def shape : Shape := .structure [("nodeType", .leaf), ("file", .leaf)]

theorem ofDocument?_edit (format : Format) : Overlooks (ofDocument? format) shape := by
  refine overlooks_structure (fun d => rfl) ?_
  intro name shape value value' known inside
  simp only [List.mem_cons, Prod.mk.injEq, List.not_mem_nil, or_false] at known
  rcases known with ⟨-, rfl⟩ | ⟨-, rfl⟩ <;> cases inside

end SyntaxNode

namespace SourceUnit

def treeShape : Shape := .structure [("nodes", .list SyntaxNode.shape)]

def shape : Shape := .structure [("ast", treeShape)]

/-- The nodes of a syntax tree. -/
def nodesOf? (format : Format) (d : Document) : Option (List SyntaxNode) := do
  let [nodes] ← d.fields format ["nodes"] | none
  Document.fieldD [] (Document.items? (SyntaxNode.ofDocument? format)) nodes

theorem nodesOf?_edit (format : Format) : Overlooks (nodesOf? format) treeShape := by
  refine overlooks_structure (fun d => rfl) ?_
  intro name shape value value' known inside others
  obtain ⟨rfl, rfl⟩ := Prod.mk.inj (List.mem_singleton.mp known)
  have same := overlooks_list (SyntaxNode.ofDocument?_edit format) inside
  simpa [Document.withField, Document.fieldD] using same

theorem ofDocument?_eq (format : Format) (d : Document) :
    ofDocument? format d = (d.fields format ["ast"]).bind fun
      | [ast] => (ast.bind (nodesOf? format)).map SourceUnit.mk
      | _ => none := by
  unfold ofDocument?
  congr 1
  funext found
  rcases found with _ | ⟨_ | tree, _ | ⟨_, _⟩⟩
  case cons.some.nil =>
    simp only [nodesOf?, Option.bind_eq_bind, Option.bind_some, Option.map_bind]
    congr 1
    funext found
    rcases found with _ | ⟨nodes, _ | ⟨_, _⟩⟩
    case cons.nil => exact Option.map_eq_bind.symm
    all_goals rfl
  all_goals rfl

theorem ofDocument?_edit (format : Format) : Overlooks (ofDocument? format) shape := by
  refine overlooks_structure (ofDocument?_eq format) ?_
  intro name shape value value' known inside others
  obtain ⟨rfl, rfl⟩ := Prod.mk.inj (List.mem_singleton.mp known)
  simp [Document.withField, nodesOf?_edit format inside]

end SourceUnit

def textShape : Shape := .structure [("content", .leaf)]

theorem textOfDocument?_edit (format : Format) : Overlooks (textOfDocument? format) textShape := by
  refine overlooks_structure (fun d => rfl) ?_
  intro name shape value value' known inside
  obtain ⟨-, rfl⟩ := Prod.mk.inj (List.mem_singleton.mp known)
  cases inside

namespace CompileEvent

def sourceShape : Shape := .structure [("target", .leaf), ("sources", .map textShape)]

def dataShape : Shape := .structure [("sources", .map SourceUnit.shape)]

def shape : Shape :=
  .structure [("file", .leaf), ("source", sourceShape), ("languageVersion", .leaf),
    ("data", dataShape)]

/-- The target and the texts of an event's source. -/
def sourceOf? (d : Document) : Option (SourceName × NameMap String) := do
  let [target, texts] ← d.fields .json ["target", "sources"] | none
  return (← SourceName.ofDocument? (← target),
    ← Document.fieldD ∅ (NameMap.ofDocument? (textOfDocument? .json)) texts)

/-- The units of an event's data. -/
def unitsOf? (d : Document) : Option (NameMap SourceUnit) := do
  let [units] ← d.fields .json ["sources"] | none
  Document.fieldD ∅ (NameMap.ofDocument? (SourceUnit.ofDocument? .json)) units

theorem sourceOf?_edit : Overlooks sourceOf? sourceShape := by
  refine overlooks_structure (fun d => rfl) ?_
  intro name shape value value' known inside others
  simp only [List.mem_cons, Prod.mk.injEq, List.not_mem_nil, or_false] at known
  rcases known with ⟨rfl, rfl⟩ | ⟨rfl, rfl⟩
  · cases inside
  · have same := overlooks_map (textOfDocument?_edit .json) inside
    simp [Document.withField, Option.bind_assoc, Document.fieldD, same]

theorem unitsOf?_edit : Overlooks unitsOf? dataShape := by
  refine overlooks_structure (fun d => rfl) ?_
  intro name shape value value' known inside others
  obtain ⟨rfl, rfl⟩ := Prod.mk.inj (List.mem_singleton.mp known)
  have same := overlooks_map (SourceUnit.ofDocument?_edit .json) inside
  simpa [Document.withField, Document.fieldD] using same

theorem ofDocument?_eq (d : Document) :
    ofDocument? d = (d.fields .json ["file", "source", "languageVersion", "data"]).bind fun
      | [file, source, version, data] => do
        let (target, texts) ← source.bind sourceOf?
        let units ← data.bind unitsOf?
        return ⟨← file.bind Document.text?, target, texts, units,
          ← Document.optional Document.text? version⟩
      | _ => none := by
  unfold ofDocument?
  congr 1
  funext found
  rcases found with _ | ⟨file, _ | ⟨_ | source, _ | ⟨version, _ | ⟨data, _ | ⟨_, _⟩⟩⟩⟩⟩
  case cons.cons.some.cons.cons.nil =>
    simp only [sourceOf?, Option.bind_eq_bind, Option.bind_some, Option.bind_assoc]
    congr 1
    funext found
    rcases found with _ | ⟨target, _ | ⟨texts, _ | ⟨_, _⟩⟩⟩
    case cons.cons.nil =>
      cases data with
      | none => simp
      | some data =>
          simp only [unitsOf?, Option.bind_eq_bind, Option.bind_some]
          rcases data.fields .json ["sources"] with _ | _ | ⟨units, _ | ⟨_, _⟩⟩
          case some.cons.nil =>
            cases file with
            | none => simp
            | some file => cases text : file.text? <;> simp [text, Option.bind_assoc]
          all_goals simp
    all_goals rfl
  all_goals rfl

theorem ofDocument?_edit : Overlooks ofDocument? shape := by
  refine overlooks_structure ofDocument?_eq ?_
  intro name shape value value' known inside others
  simp only [List.mem_cons, Prod.mk.injEq, List.not_mem_nil, or_false] at known
  rcases known with ⟨-, rfl⟩ | ⟨rfl, rfl⟩ | ⟨-, rfl⟩ | ⟨rfl, rfl⟩
  · cases inside
  · simp [Document.withField, Option.bind_assoc, sourceOf?_edit inside]
  · cases inside
  · simp [Document.withField, Option.bind_assoc, unitsOf?_edit inside]

theorem ofDocument?_edits {d d' : Document} (edits : ReflTransGen (Edit shape) d d') :
    ofDocument? d' = ofDocument? d := by
  induction edits with
  | refl => rfl
  | tail _ edit ih => rw [ofDocument?_edit edit, ih]

theorem parse_of_spells {text : String} {d : Document} (spells : Json.Spells text d) :
    parse text = ofDocument? d := by
  rw [parse, Json.parse_of_spells spells]
  rfl

/-- Reordering the members of an event's structures and adding members that are no fields changes
nothing: however the edited document is spelled, it is read as the event that it was before. -/
theorem parse_overlooks_edits {text text' : String} {d d' : Document} {event : CompileEvent}
    (read : Json.parse text = some d) (accepted : parse text = some event)
    (edits : ReflTransGen (Edit shape) d d') (spells : Json.Spells text' d') :
    parse text' = some event := by
  have before : ofDocument? d = some event := by
    rw [parse, read] at accepted
    exact accepted
  rw [parse_of_spells spells, ofDocument?_edits edits, before]

/-- An event's members, where the target has one node. -/
def announcement (node : Document) : List (Option String × Document) :=
  [(some "file", .text "A"), (some "source", .record [("target", .text "A")]),
    (some "data", .record [("sources", .record [("A", .record [("ast", .record [("nodes",
      .array [node])])])])])]

def plainNode : Document := .record [("nodeType", .text "Id")]

/-- A node with a member that is no field, whose value is several arrays deep. -/
def clutteredNode : Document :=
  .record [("src", .array [.array [.number "-1.5e3", .array [.null]]]), ("nodeType", .text "Id")]

def announced : CompileEvent where
  file := "A"
  compilation := {
    target := ⟨"A"⟩
    units := .ofList [(⟨"A"⟩, { nodes := [{ kind := "Id" }] })] }

theorem edit_announcement {node node' : Document} (inside : Edit SyntaxNode.shape node node') :
    Edit shape (.object (announcement node)) (.object (announcement node')) := by
  have tree := @Edit.field [("nodes", .list SyntaxNode.shape)] [] [] "nodes" _ _ _ (by simp)
    (@Edit.item _ [] [] _ _ inside)
  have unit := @Edit.field [("ast", SourceUnit.treeShape)] [] [] "ast" SourceUnit.treeShape _ _
    (by simp) tree
  have data := @Edit.field [("sources", .map SourceUnit.shape)] [] [] "sources"
    (.map SourceUnit.shape) _ _ (by simp) (@Edit.entry SourceUnit.shape [] [] (some "A") _ _ unit)
  exact @Edit.field _ ((announcement node).take 2) [] "data" dataShape _ _ (by simp) data

theorem edits_announcement :
    ReflTransGen (Edit shape) (.object (announcement plainNode))
      (.object (announcement clutteredNode).reverse) := by
  have inserted : Edit shape (.object (announcement plainNode))
      (.object (announcement clutteredNode)) :=
    edit_announcement (@Edit.insert _ [] [(some "nodeType", .text "Id")] "src" _ (by decide))
  exact .tail (.single inserted) (.reorder (List.reverse_perm _).symm)

theorem numeral_clutteredNode : Json.Numeral "-1.5e3".toList := by
  have digit (c : Char) (isDigit : c.isDigit) : Json.IsDigits [c] :=
    ⟨by simp, by simpa using isDigit⟩
  exact .negative (@Json.Unsigned.mk ['1'] ['.', '5'] ['e', '3']
    (.digits (digit '1' rfl) (by decide)) (.present (digit '5' rfl))
    (@Json.Exponent.present 'e' [] ['3'] (.inl rfl) (.inl rfl) (digit '3' rfl)))

theorem spells_cluttered :
    Json.Spells (Json.write (.object (announcement clutteredNode).reverse))
      (.object (announcement clutteredNode).reverse) := by
  apply Json.spells_write
  · simp [announcement, clutteredNode, Document.text, Document.record]
  · intro literal among
    obtain rfl : literal = "-1.5e3" := by
      simpa [announcement, clutteredNode, Document.text, Document.record, Json.tokens,
        Json.itemTokens, Json.memberTokens] using among
    exact numeral_clutteredNode

theorem spells_plain {members : List (Option String × Document)}
    (among : members = announcement plainNode ∨ members = (none, .null) :: announcement plainNode) :
    Json.Spells (Json.write (.object members)) (.object members) := by
  apply Json.spells_write
  · rcases among with rfl | rfl <;>
      simp [announcement, plainNode, Document.text, Document.record]
  · intro literal number
    rcases among with rfl | rfl <;>
      simp [announcement, plainNode, Document.text, Document.record, Json.tokens,
        Json.itemTokens, Json.memberTokens] at number

theorem parse_cluttered_announcement :
    parse (Json.write (.object (announcement plainNode))) = some announced ∧
      parse ("\n" ++ Json.write (.object (announcement clutteredNode).reverse)) =
        some announced := by
  have plain := spells_plain (.inl rfl)
  have accepted : parse (Json.write (.object (announcement plainNode))) = some announced := by
    rw [parse_of_spells plain]
    rfl
  have spaced : Json.Spells ("\n" ++ Json.write (.object (announcement clutteredNode).reverse))
      (.object (announcement clutteredNode).reverse) := by
    refine ⟨spells_cluttered.isJson, ?_⟩
    rw [String.toList_append]
    exact .space rfl spells_cluttered.spelled
  exact ⟨accepted,
    parse_overlooks_edits (Json.parse_of_spells plain) accepted edits_announcement spaced⟩

/-- A name with an unpaired surrogate is not passed over. -/
theorem parse_refuses_unpaired_name :
    parse (Json.write (.object (announcement plainNode))) = some announced ∧
      parse (Json.write (.object ((none, .null) :: announcement plainNode))) = none := by
  constructor
  · rw [parse_of_spells (spells_plain (.inl rfl))]
    rfl
  · rw [parse_of_spells (spells_plain (.inr rfl))]
    rfl

end CompileEvent

end ImportFlattening
