import SchemaEnums.Proofs.Enums.Requests
import SchemaEnums.Proofs.Enums.Table

/-!
# Enums — Contents

What a generated file declares, told from the blocks of the schema.

A file that is made has one member for each value (`EnumFile.build_eq`), so nothing is lost, added
or moved on the way from the blocks: each model gives one member to the models' enum and one to the
client's, each mapped model one to the tables', and each enum one declaration with one member for
each of its values (`declarations_of_read`).  The table of a model is stated apart
from the search that finds it (`ModelBlock.MapsTo`).
-/

namespace SchemaEnums.Schema

/-! ### Tables of models -/

/-- The value that an attribute is given under `name`, or else the first one given without a
name. -/
def Attribute.Names (a : Attribute) (value : Expression) : Prop :=
  (∃ before after, a.arguments = before ++ .mk (some "name") value :: after ∧
    ∀ x ∈ before, x.name ≠ some "name") ∨
  (∀ x ∈ a.arguments, x.name ≠ some "name") ∧
    ∃ before after, a.arguments = before ++ .mk none value :: after ∧ ∀ x ∈ before, x.name ≠ none

/-- The block's first attribute called `map` names the table. -/
def ModelBlock.MapsTo (b : ModelBlock) (table : String) : Prop :=
  ∃ before a after, b.attributes = before ++ a :: after ∧ (∀ x ∈ before, x.name ≠ "map") ∧
    a.name = "map" ∧ a.Names (.string table)

theorem find?_argument_eq_some_iff {name : Option String} {arguments : List Argument}
    {value : Expression} :
    (arguments.find? (·.name == name)).map Argument.value = some value ↔
      ∃ before after, arguments = before ++ .mk name value :: after ∧
        ∀ x ∈ before, x.name ≠ name := by
  simp only [Option.map_eq_some_iff, List.find?_eq_some_iff_append, Bool.not_eq_true',
    beq_iff_eq, beq_eq_false_iff_ne]
  constructor
  · rintro ⟨⟨n, v⟩, ⟨rfl, before, after, harguments, hbefore⟩, rfl⟩
    exact ⟨before, after, harguments, hbefore⟩
  · rintro ⟨before, after, harguments, hbefore⟩
    exact ⟨.mk name value, ⟨rfl, before, after, harguments, hbefore⟩, rfl⟩

theorem Attribute.nameArgument_eq_some_iff {a : Attribute} {value : Expression} :
    a.nameArgument = some value ↔ a.Names value := by
  have hnone : (fun x : Argument => x.name.isNone) = (·.name == none) := by
    funext x
    cases x.name <;> rfl
  rw [Attribute.nameArgument, hnone, Attribute.Names, ← find?_argument_eq_some_iff,
    ← find?_argument_eq_some_iff]
  cases hnamed : a.arguments.find? (·.name == some "name") with
  | none =>
      rw [List.find?_eq_none] at hnamed
      have hno : ∀ x ∈ a.arguments, x.name ≠ some "name" := fun x hx => by simpa using hnamed x hx
      exact ⟨fun h => .inr ⟨hno, h⟩, fun h => (h.resolve_left nofun).2⟩
  | some x =>
      have hx : ∃ x ∈ a.arguments, x.name = some "name" :=
        ⟨x, List.mem_of_find?_eq_some hnamed, by simpa using List.find?_some hnamed⟩
      simp only [Option.some_or, Option.map_some]
      refine ⟨.inl, ?_⟩
      rintro (h | ⟨hno, -⟩)
      · exact h
      · obtain ⟨y, hy, hname⟩ := hx
        exact absurd hname (hno y hy)

theorem Expression.string?_eq_some_iff {e : Expression} {s : String} :
    e.string? = some s ↔ e = .string s := by
  cases e <;> simp [Expression.string?]

theorem ModelBlock.mappedName_eq_some_iff {b : ModelBlock} {table : String} :
    b.mappedName = some table ↔ b.MapsTo table := by
  simp only [ModelBlock.mappedName, Option.bind_eq_some_iff, List.find?_eq_some_iff_append,
    Expression.string?_eq_some_iff, Attribute.nameArgument_eq_some_iff, Bool.not_eq_true',
    beq_iff_eq, beq_eq_false_iff_ne, ModelBlock.MapsTo]
  constructor
  · rintro ⟨_, ⟨a, ⟨hmap, before, after, hattributes, hbefore⟩, hnames⟩, rfl⟩
    exact ⟨before, a, after, hattributes, hbefore, hmap, hnames⟩
  · rintro ⟨before, a, after, hattributes, hbefore, hmap, hnames⟩
    exact ⟨_, ⟨a, ⟨hmap, before, after, hattributes, hbefore⟩, hnames⟩, rfl⟩

/-! ### Models and enums -/

/-- The `model` blocks, in their order. -/
def Document.models (d : Document) : List ModelBlock :=
  d.blocks.filterMap fun
    | .model b => if b.kind = .model then some b else none
    | _        => none

/-- The `enum` blocks, in their order. -/
def Document.enums (d : Document) : List EnumBlock :=
  d.blocks.filterMap fun
    | .enum b => some b
    | _       => none

theorem Document.summary_models (d : Document) :
    d.summary.models = d.models.map fun b => ⟨b.name.name, b.mappedName⟩ := by
  rw [Document.models, List.map_filterMap, Document.summary]
  refine congrArg (List.filterMap · d.blocks) (funext fun b => ?_)
  cases b with
  | model b => by_cases h : b.kind = .model <;> simp [Block.model?, h]
  | enum b => rfl
  | config b => rfl

theorem Document.summary_enums (d : Document) :
    d.summary.enums = d.enums.map fun b => ⟨b.name.name, b.values.map (·.name.name)⟩ := by
  rw [Document.enums, List.map_filterMap, Document.summary]
  refine congrArg (List.filterMap · d.blocks) (funext fun b => ?_)
  cases b <;> rfl

end SchemaEnums.Schema

namespace SchemaEnums.Enums
open Schema

/-! ### Declarations -/

/-- The file made from names: the declarations of the selected categories with all their
members. -/
theorem EnumFile.build_eq {names : Names} {selected : List Category} {f : EnumFile}
    (h : EnumFile.build names selected = .ok f) :
    f.declarations =
      (if .prismaModel ∈ selected then
        [⟨"PrismaModel", membersOf Naming.pascalize names.accessors⟩] else []) ++
      (if .modelName ∈ selected then
        [⟨"ModelName", membersOf Naming.pascalize names.models⟩] else []) ++
      (if .tableName ∈ selected then
        [⟨"TableName", membersOf Naming.pascalize
          (if names.tables.isEmpty then names.models else names.tables)⟩] else []) ++
      (if .enums ∈ selected then
        names.enums.map fun e => ⟨e.1 ++ "Enum", membersOf Naming.memberName e.2⟩ else []) := by
  obtain ⟨-, rfl⟩ := (EnumFile.build_settles names selected).eq_ok_iff.mp h
  simp only [Names.declarations, Category.collect_eq, Names.declarationsOf, List.append_nil,
    List.append_assoc]

/-! ### From blocks to declarations -/

/-- The declarations for the blocks of a schema. -/
def declarationsFor (d : Document) (selected : List Category) : List Declaration :=
  let models := d.models.map (·.name.name)
  let tables := d.models.filterMap (·.mappedName)
  (if .prismaModel ∈ selected then
    [⟨"PrismaModel", membersOf Naming.pascalize (models.map Naming.camelize)⟩] else []) ++
  (if .modelName ∈ selected then [⟨"ModelName", membersOf Naming.pascalize models⟩] else []) ++
  (if .tableName ∈ selected then
    [⟨"TableName", membersOf Naming.pascalize (if tables.isEmpty then models else tables)⟩]
    else []) ++
  (if .enums ∈ selected then
    d.enums.map fun b =>
      ⟨b.name.name ++ "Enum", membersOf Naming.memberName (b.values.map (·.name.name))⟩ else [])

/-- **A generated file declares what the schema's blocks say.**  Each model is a member of the
models' enum and, as the client spells it, of the client's; the tables that models are mapped to are
the members of the tables' enum, or the models are where there is no such table; each enum is
declared once with its values; and nothing else is declared. -/
theorem declarations_of_read (text : String) (d : Document) (selected : List Category)
    (f : EnumFile) (hd : Document.read text = .ok d)
    (hf : EnumFile.build (Names.ofSummary d.summary) selected = .ok f) :
    f.declarations = declarationsFor d selected ∧
      ∀ (b : ModelBlock) (table : String), b.mappedName = some table ↔ b.MapsTo table := by
  refine ⟨?_, fun _ _ => ModelBlock.mappedName_eq_some_iff⟩
  have hnodup := Document.nodup_enum_names (Document.read_eq_ok_iff.mp hd).2
  rw [EnumFile.build_eq hf, declarationsFor]
  simp only [Names.ofSummary]
  rw [valuesByName_of_nodup hnodup]
  simp only [d.summary_models, d.summary_enums, List.map_map, List.filterMap_map]
  rfl

/-- A view, a model with a table, and an enum. -/
def mappedModelText : String :=
  "view Seen \x7b\x7d\nmodel User \x7b\n@@map(\"users\", name: \"people\")\n\x7d\n" ++
    "enum Role \x7b\nADMIN @map(\"a\")\n\x7d"

/-- What `mappedModelText` is read as. -/
def mappedModelDocument : Document where
  blocks := [
    .model ⟨.view, ⟨"Seen", ⟨1, 6⟩⟩, [], []⟩,
    .model ⟨.model, ⟨"User", ⟨2, 7⟩⟩, [],
      [⟨"map", [.mk none (.string "users"), .mk (some "name") (.string "people")]⟩]⟩,
    .enum ⟨⟨"Role", ⟨5, 6⟩⟩, [⟨⟨"ADMIN", ⟨6, 1⟩⟩, [⟨"map", [.mk none (.string "a")]⟩]⟩], []⟩]

set_option maxRecDepth 4000 in
theorem mappedModelText_read : Document.read mappedModelText = .ok mappedModelDocument := rfl

theorem declarations_of_read_mapped :
    Document.read mappedModelText = .ok mappedModelDocument ∧
      EnumFile.build (Names.ofSummary mappedModelDocument.summary) Category.all =
        .ok ⟨declarationsFor mappedModelDocument Category.all⟩ ∧
      declarationsFor mappedModelDocument Category.all =
        [⟨"PrismaModel", [⟨"User", "user"⟩]⟩, ⟨"ModelName", [⟨"User", "User"⟩]⟩,
          ⟨"TableName", [⟨"People", "people"⟩]⟩, ⟨"RoleEnum", [⟨"Admin", "ADMIN"⟩]⟩] :=
  ⟨mappedModelText_read, rfl, (declarations_of_read mappedModelText mappedModelDocument
    Category.all ⟨declarationsFor mappedModelDocument Category.all⟩ mappedModelText_read
    rfl).1.symm.trans rfl⟩

end SchemaEnums.Enums
