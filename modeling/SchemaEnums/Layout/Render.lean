import SchemaEnums.Enums.Declaration
import SchemaEnums.Layout.Options
import SchemaEnums.Layout.Quote

/-!
# Layout — Render

The text of the generated file, line by line: a banner, each enum with a blank line after it, and
one export of all names.  The export stays on one line as long as that fits the print width.
-/

namespace SchemaEnums.Layout
open Enums

/-- The comment at the top of every generated file. -/
def banner : String :=
  "/* * Enumerates are ONLY allowed to modified by script, DO NOT MODIFY manually * */"

/-- One line for each item: `last` after the last of them, and a comma after the others. -/
def itemLines (indent last : String) : List String → List String
  | []            => []
  | [item]        => [indent ++ item ++ last]
  | item :: items => (indent ++ item ++ ",") :: itemLines indent last items

/-- A member without its comma. -/
def memberText (o : Options) (m : Member) : String :=
  m.identifier ++ " = " ++ Quote.literal o.singleQuote m.value

/-- The lines of an enum. -/
def declarationLines (o : Options) (d : Declaration) : List String :=
  match d.members with
  | [] => ["enum " ++ d.name ++ " \x7b\x7d"]
  | ms =>
    ["enum " ++ d.name ++ " \x7b"] ++
    itemLines o.indent o.trailingComma.text (ms.map (memberText o)) ++
    ["\x7d"]

/-- The export on one line. -/
def exportLine (o : Options) (names : List String) : String :=
  "export \x7b" ++ o.padding ++ ", ".intercalate names ++ o.padding ++ "\x7d" ++ o.semicolon

/-- The lines of the export. -/
def exportLines (o : Options) (names : List String) : List String :=
  match names with
  | [] => ["export \x7b\x7d" ++ o.semicolon]
  | names =>
    if (exportLine o names).length ≤ o.printWidth then [exportLine o names]
    else
      ["export \x7b"] ++ itemLines o.indent o.trailingComma.text names ++ ["\x7d" ++ o.semicolon]

/-- The lines of a generated file. -/
def fileLines (o : Options) (f : EnumFile) : List String :=
  [banner, ""] ++ (f.declarations.flatMap fun d => declarationLines o d ++ [""]) ++
  exportLines o f.exports

/-- The text of a generated file. -/
def render (o : Options) (f : EnumFile) : String :=
  String.join ((fileLines o f).map (· ++ o.endOfLine.text))

end SchemaEnums.Layout
