import SchemaEnums.Schema.Summary
import SchemaEnums.Naming.Case

/-!
# Enums — Names

The names that a schema gives to the generated enums: its models, the tables that models are
mapped to, the models as the client calls them, and the values of its enums.
-/

namespace SchemaEnums.Enums
open Schema

/-- The names drawn from a schema, in its order. -/
structure Names where
  models    : List String
  /-- The tables of the models that are mapped to one. -/
  tables    : List String
  /-- The models as the client spells them. -/
  accessors : List String
  enums     : List (String × List String)
deriving Repr, DecidableEq

/-- The list with `values` for `name`: in the place of its entry, if it has one, or at the end. -/
def put (name : String) (values : List String) :
    List (String × List String) → List (String × List String)
  | []             => [(name, values)]
  | entry :: rest  =>
    if entry.1 == name then (name, values) :: rest else entry :: put name values rest

/-- Each enum's name once, at its first place and with its last values. -/
def valuesByName (enums : List EnumSummary) : List (String × List String) :=
  enums.foldl (fun table e => put e.name e.values table) []

/-- The names drawn from a summary. -/
def Names.ofSummary (s : Summary) : Names where
  models    := s.models.map (·.name)
  tables    := s.models.filterMap (·.table)
  accessors := s.models.map fun m => Naming.camelize m.name
  enums     := valuesByName s.enums

end SchemaEnums.Enums
