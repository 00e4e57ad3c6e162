import SchemaEnums.Enums.Declaration
import SchemaEnums.Enums.Names

/-!
# Enums — Build

The generated file's declarations.  There are four categories, and a file holds the selected ones
in a fixed order: the client's names, the models' names, the tables' names, and one enum for each
enum of the schema.  Where no model is mapped to a table, the tables' names are the models'.
-/

namespace SchemaEnums.Enums

/-- A group of declarations that can be selected. -/
inductive Category where
  | prismaModel
  | modelName
  | tableName
  | enums
deriving Repr, DecidableEq

/-- All categories in the order of the file. -/
def Category.all : List Category :=
  [.prismaModel, .modelName, .tableName, .enums]

/-- The name under which a category is selected. -/
def Category.word : Category → String
  | prismaModel => "prisma-model"
  | modelName   => "model-name"
  | tableName   => "table-name"
  | enums       => "enums"

/-- The category of a name. -/
def Category.ofWord? (word : String) : Option Category :=
  Category.all.find? (·.word == word)

/-- The enum of a schema's enum. -/
def declareEnum (e : String × List String) : Except Clash Declaration :=
  Declaration.make (e.1 ++ "Enum") Naming.memberName e.2

/-- The enums of a list, up to the first that cannot be declared. -/
def declareEnums : List (String × List String) → Except Clash (List Declaration)
  | []        => .ok []
  | e :: rest => do
    let d ← declareEnum e
    let ds ← declareEnums rest
    .ok (d :: ds)

/-- The enum of the tables' names, given that of the models' names. -/
def declareTables (names : Names) (modelName : Declaration) : Except Clash Declaration :=
  if names.tables.isEmpty then .ok ⟨"TableName", modelName.members⟩
  else Declaration.make "TableName" Naming.pascalize names.tables

/-- `declarations`, if the category is selected. -/
def whenSelected (selected : List Category) (category : Category)
    (declarations : Except Clash (List Declaration)) : Except Clash (List Declaration) :=
  if selected.contains category then declarations else .ok []

/-- The file of the selected categories.  The models' names are declared in any case, and what
stands in their way stands in the file's. -/
def EnumFile.build (names : Names) (selected : List Category) : Except Clash EnumFile := do
  let accessors ← whenSelected selected .prismaModel do
    let d ← Declaration.make "PrismaModel" Naming.pascalize names.accessors
    .ok [d]
  let modelName ← Declaration.make "ModelName" Naming.pascalize names.models
  let models ← whenSelected selected .modelName (.ok [modelName])
  let tables ← whenSelected selected .tableName do
    let d ← declareTables names modelName
    .ok [d]
  let enums ← whenSelected selected .enums (declareEnums names.enums)
  .ok ⟨accessors ++ models ++ tables ++ enums⟩

end SchemaEnums.Enums
