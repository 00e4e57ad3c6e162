import SchemaEnums.Schema.Grammar
import SchemaEnums.Schema.Check

/-!
# Schema — Summary

What the enums are made from: the models with the tables they are mapped to, and the enums with
their values.  Views, composite types and configuration blocks leave no trace in it.
-/

namespace SchemaEnums.Schema

/-- A model and the table it is mapped to. -/
structure ModelSummary where
  name  : String
  table : Option String
deriving Repr, DecidableEq

/-- An enum and its values. -/
structure EnumSummary where
  name   : String
  values : List String
deriving Repr, DecidableEq

/-- The models and enums of a schema, in the order in which they stand. -/
structure Summary where
  models : List ModelSummary
  enums  : List EnumSummary
deriving Repr, DecidableEq

/-- The summary of a schema that says nothing. -/
def Summary.empty : Summary := ⟨[], []⟩

/-- There is neither a model nor an enum. -/
def Summary.isEmpty (s : Summary) : Bool :=
  s.models.isEmpty && s.enums.isEmpty

/-- The summary of a block that is a model. -/
def Block.model? : Block → Option ModelSummary
  | .model b => if b.kind = .model then some ⟨b.name.name, b.mappedName⟩ else none
  | _        => none

/-- The summary of a block that is an enum. -/
def Block.enum? : Block → Option EnumSummary
  | .enum b => some ⟨b.name.name, b.values.map (·.name.name)⟩
  | _       => none

/-- The models and enums of a document. -/
def Document.summary (d : Document) : Summary :=
  ⟨d.blocks.filterMap Block.model?, d.blocks.filterMap Block.enum?⟩

/-- The schema that a text holds, if it is sound. -/
def Document.read (text : String) : Except Error Document := do
  let d ← (Document.parse text).mapError .malformed
  d.check
  .ok d

/-- The summary of a text. -/
def Summary.read (text : String) : Except Error Summary :=
  (Document.read text).map Document.summary

end SchemaEnums.Schema
