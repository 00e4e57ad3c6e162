import SchemaEnums.Schema.Tree

/-!
# Schema — Fault

Why a text is no schema.  There are eight faults; each is reported with the place of the line,
block or string at fault.
-/

namespace SchemaEnums.Schema
open Text

/-- What is wrong at a place of the text. -/
inductive Fault where
  /-- The text ends inside a block. -/
  | missingBrace
  /-- A line outside every block starts none. -/
  | strayLine
  /-- A block opens with a word that is no keyword. -/
  | unknownKeyword (word : String)
  | notField
  | notEnumValue
  | notSetting (kind : ConfigKind)
  | unknownEscape (c : Char)
  | invalidUnicodeEscape
deriving Repr, DecidableEq

/-- The wording of a fault. -/
def Fault.message : Fault → String
  | missingBrace         => "missing closing `\x7d`"
  | strayLine            =>
    "This line is invalid. It does not start with any known Prisma schema keyword."
  | unknownKeyword word  =>
    "This block is invalid. `" ++ word ++ "` is not a known Prisma schema keyword. " ++
    "Valid keywords include 'model', 'enum', 'type', 'view', 'datasource' and 'generator'."
  | notField             => "This line is not a valid field or attribute definition."
  | notEnumValue         => "This line is not an enum value definition."
  | notSetting kind      =>
    "This line is not a valid definition within a " ++ kind.keyword ++ "."
  | unknownEscape c      => "unknown escape sequence `\\" ++ c.toString ++ "`"
  | invalidUnicodeEscape => "invalid unicode escape sequence"

/-- A fault and its place. -/
structure SyntaxError where
  position : Position
  fault    : Fault
deriving Repr, DecidableEq

/-- A value that was read, or the first fault inside it. -/
abbrev Checked (α : Type) := Except SyntaxError α

/-- All values of a list, or the first fault among them. -/
def Checked.all {α : Type} : List (Checked α) → Checked (List α)
  | []               => .ok []
  | .error e :: _    => .error e
  | .ok a    :: rest => (Checked.all rest).map (a :: ·)

end SchemaEnums.Schema
