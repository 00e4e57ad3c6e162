import SchemaEnums.Schema.Fault
import SchemaEnums.Files.Problem

/-!
# Schema — Error

Why a schema file is not accepted: it cannot be read, its text is no schema, a name is declared
twice, or the type of a field is declared nowhere.
-/

namespace SchemaEnums.Schema
open Text

/-- A reason not to accept a schema. -/
inductive Error where
  | unreadable (path : String) (problem : Files.Problem)
  | malformed (error : SyntaxError)
  /-- The second declaration of a name. -/
  | declaredTwice (name : Identifier)
  /-- A field of `container` whose type is neither built in nor declared. -/
  | unknownType (container : String) (field : String) (type : Identifier)
deriving Repr, DecidableEq

/-- The wording of an error. -/
def Error.message : Error → String
  | unreadable path problem => "failed to read schema " ++ path ++ ": " ++ problem.message
  | malformed e             => "syntax error at " ++ e.position.text ++ ": " ++ e.fault.message
  | declaredTwice name      =>
    "`" ++ name.name ++ "` is declared more than once (second declaration at " ++
    name.position.text ++ ")"
  | unknownType container field type =>
    "type `" ++ type.name ++ "` of field `" ++ container ++ "." ++ field ++ "` at " ++
    type.position.text ++ " is neither a built-in type, nor refers to another model, " ++
    "composite type, or enum"

end SchemaEnums.Schema
