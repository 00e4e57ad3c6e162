import SchemaEnums.Schema.Error

/-!
# Schema — Check

A schema is sound when no name is declared twice and every field has a known type.  The names of
configuration blocks live apart from all others, and a field may refer forward.  Repeated names
are looked for in the whole schema before any field is.
-/

namespace SchemaEnums.Schema

/-- The types that need no declaration. -/
def builtinTypes : List String :=
  ["String", "Boolean", "Int", "BigInt", "Float", "Decimal", "DateTime", "Json", "Bytes",
   "Unsupported"]

/-- The block configures and declares no type. -/
def Block.isConfig : Block → Bool
  | .config _ => true
  | _         => false

/-- The names declared as types. -/
def Document.typeNames (d : Document) : List String :=
  (d.blocks.filter (!·.isConfig)).map (·.name.name)

/-- The first block of the list whose name a block before it has, where `seen` holds what stands
before the list. -/
def firstRepeated (seen : List Block) : List Block → Option Identifier
  | []           => none
  | b :: blocks  =>
    if seen.any fun a => a.isConfig == b.isConfig && a.name.name == b.name.name then some b.name
    else firstRepeated (b :: seen) blocks

/-- The type of the field is built in or declared. -/
def Field.isKnown (declared : List String) (f : Field) : Bool :=
  builtinTypes.contains f.type.name || declared.contains f.type.name

/-- The first field of the block whose type is not known. -/
def Block.unknownField (declared : List String) : Block → Option Error
  | .model b =>
    (b.fields.find? (!·.isKnown declared)).map fun f => .unknownType b.name.name f.name.name f.type
  | _        => none

/-- The first reason why the schema is not sound. -/
def Document.problem (d : Document) : Option Error :=
  ((firstRepeated [] d.blocks).map .declaredTwice).or
    (d.blocks.findSome? (Block.unknownField d.typeNames))

/-- Accepts the sound schemas. -/
def Document.check (d : Document) : Except Error Unit :=
  match d.problem with
  | some e => .error e
  | none   => .ok ()

end SchemaEnums.Schema
