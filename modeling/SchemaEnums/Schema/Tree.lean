import SchemaEnums.Text.Position

/-!
# Schema — Tree

What a Prisma schema file says: a list of blocks, each a model (or view, or composite type), an
enum, or a configuration block.  Names keep the place where they were read, and nothing else does.

* `Attribute.nameArgument` picks the argument called `name`, or else the first without a name.
* `ModelBlock.mappedName` is the table that `@@map` gives to a model.
-/

namespace SchemaEnums.Schema
open Text

/-- A name and the place where it stands. -/
structure Identifier where
  name     : String
  position : Position
deriving Repr, DecidableEq

mutual

/-- A value in an argument list, an array or a setting. -/
inductive Expression where
  | string   (value : String)
  | number   (text : String)
  | constant (path : String)
  | call     (path : String) (arguments : List Argument)
  | array    (elements : List Expression)
deriving Repr

/-- An argument, with or without a name. -/
inductive Argument where
  | mk (name : Option String) (value : Expression)
deriving Repr

end

namespace Argument

def name : Argument → Option String
  | mk n _ => n

def value : Argument → Expression
  | mk _ v => v

end Argument

/-- The text of a string, and nothing for any other value. -/
def Expression.string? : Expression → Option String
  | .string s => some s
  | _         => none

/-- `@name(…)` on a field or value, `@@name(…)` on a block. -/
structure Attribute where
  name      : String
  arguments : List Argument
deriving Repr

/-- The argument called `name`, or else the first one without a name. -/
def Attribute.nameArgument (a : Attribute) : Option Expression :=
  ((a.arguments.find? (·.name == some "name")).or
    (a.arguments.find? (·.name.isNone))).map Argument.value

/-- How many values a field holds. -/
inductive Arity where
  | required
  | optional
  | list
deriving Repr, DecidableEq

/-- A line `name Type` of a model. -/
structure Field where
  name       : Identifier
  type       : Identifier
  arity      : Arity
  attributes : List Attribute
deriving Repr

/-- The three kinds of block that hold fields. -/
inductive ModelKind where
  | model
  | view
  | type
deriving Repr, DecidableEq

/-- A `model`, `view` or `type` block. -/
structure ModelBlock where
  kind       : ModelKind
  name       : Identifier
  fields     : List Field
  attributes : List Attribute
deriving Repr

/-- The text that the block's first `@@map` names, if it is a string. -/
def ModelBlock.mappedName (b : ModelBlock) : Option String :=
  ((b.attributes.find? (·.name == "map")).bind Attribute.nameArgument).bind Expression.string?

/-- A line of an enum. -/
structure EnumValue where
  name       : Identifier
  attributes : List Attribute
deriving Repr

/-- An `enum` block. -/
structure EnumBlock where
  name       : Identifier
  values     : List EnumValue
  attributes : List Attribute
deriving Repr

/-- The two kinds of configuration block. -/
inductive ConfigKind where
  | datasource
  | generator
deriving Repr, DecidableEq

/-- The word that opens the block. -/
def ConfigKind.keyword : ConfigKind → String
  | datasource => "datasource"
  | generator  => "generator"

/-- A line `key = value` of a configuration block. -/
structure Setting where
  key   : Identifier
  value : Expression
deriving Repr

/-- A `datasource` or `generator` block. -/
structure ConfigBlock where
  kind     : ConfigKind
  name     : Identifier
  settings : List Setting
deriving Repr

/-- A block of a schema. -/
inductive Block where
  | model  (block : ModelBlock)
  | enum   (block : EnumBlock)
  | config (block : ConfigBlock)
deriving Repr

/-- The name that a block declares. -/
def Block.name : Block → Identifier
  | .model b  => b.name
  | .enum b   => b.name
  | .config b => b.name

/-- A whole schema: its blocks in the order in which they stand. -/
structure Document where
  blocks : List Block
deriving Repr

end SchemaEnums.Schema
