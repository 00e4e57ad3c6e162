import SchemaEnums.Layout.Options
import SchemaEnums.Data.Json
import SchemaEnums.Data.Yaml.Node
import SchemaEnums.Data.Toml.Document

/-!
# Config — Decode

Options out of data.  Each notation says which of its values are truth values, sizes and words;
from there on all are treated alike: a key that is no option is ignored, an option that is not
there keeps its default, and one that is there twice or with a value of another kind spoils the
whole.

`ofJson?`, `ofYaml?` and `ofToml?` read documents; a JSON document may also
be an array of values, in the order of the options.
-/

namespace SchemaEnums.Config
open Layout Data

/-- How a notation writes the values of options. -/
structure Notation (α : Type) where
  bool? : α → Option Bool
  size? : α → Option Nat
  word? : α → Option String

/-- The options by name, in their order. -/
def optionNames : List String :=
  ["singleQuote", "tabWidth", "useTabs", "semi", "trailingComma", "bracketSpacing", "printWidth",
   "endOfLine"]

/-- The options with one of them set; a name that is none of theirs changes nothing. -/
def assign {α : Type} (n : Notation α) (o : Options) (name : String) (value : α) :
    Option Options :=
  match name with
  | "singleQuote"    => (n.bool? value).map ({ o with singleQuote := · })
  | "tabWidth"       => (n.size? value).map ({ o with tabWidth := · })
  | "useTabs"        => (n.bool? value).map ({ o with useTabs := · })
  | "semi"           => (n.bool? value).map ({ o with semi := · })
  | "trailingComma"  =>
    ((n.word? value).bind TrailingComma.ofWord?).map ({ o with trailingComma := · })
  | "bracketSpacing" => (n.bool? value).map ({ o with bracketSpacing := · })
  | "printWidth"     => (n.size? value).map ({ o with printWidth := · })
  | "endOfLine"      => ((n.word? value).bind EndOfLine.ofWord?).map ({ o with endOfLine := · })
  | _                => some o

/-- The options that start from the defaults and take the given settings. -/
def ofSettings? {α : Type} (n : Notation α) (settings : List (String × α)) : Option Options :=
  let names := (settings.map (·.1)).filter optionNames.contains
  if names.eraseDups.length != names.length then none
  else settings.foldlM (fun o (name, value) => assign n o name value) .default

/-! ### JSON -/

/-- A word is a string, or the name of the only member of an object with the value null. -/
def jsonWord? : Json → Option String
  | .string s               => s
  | .object [(name, .null)] => name
  | _                       => none

/-- The values of options in JSON. -/
def jsonNotation : Notation Json where
  bool? := fun
    | .bool b => some b
    | _       => none
  size? := fun
    | .number n => n.natural?
    | _         => none
  word? := jsonWord?

/-- The settings of an object or an array; an array must not be longer than the options are
many. -/
def jsonSettings? : Json → Option (List (String × Json))
  | .object ms => ms.mapM fun (name, value) => name.map (·, value)
  | .array vs  => if optionNames.length < vs.length then none else some (optionNames.zip vs)
  | _          => none

/-- The options of a JSON value. -/
def ofJson? (j : Json) : Option Options :=
  (jsonSettings? j).bind (ofSettings? jsonNotation)

/-- An object without the members that come again. -/
def lastOnly : Json → Json
  | .object ms => .object (Json.lastMembers ms)
  | j          => j

/-- The value as data: in it and in the values right inside it, later members replace earlier
ones. -/
def asData (j : Json) : Json :=
  match lastOnly j with
  | .object ms => .object (ms.map fun (name, value) => (name, lastOnly value))
  | .array vs  => .array (vs.map lastOnly)
  | j          => j

/-- The options of a JSON value as data. -/
def ofJsonData? (j : Json) : Option Options :=
  ofJson? (asData j)

/-! ### YAML -/

/-- The words for truth values. -/
def yamlBool? (text : String) : Option Bool :=
  if ["true", "True", "TRUE"].contains text then some true
  else if ["false", "False", "FALSE"].contains text then some false
  else none

/-- The number that digits of a base write, if it is below `wordBound`. -/
def word64? (base : Nat) (digits : List Char) : Option Nat := do
  let n ← Text.natural? base digits
  if n < wordBound then some n else none

/-- A number: with or without a plus sign; in base 16, 8 or 2 behind `0x`, `0o` or `0b`, else in
base ten without superfluous zeros. -/
def yamlSize? (text : String) : Option Nat :=
  let cs := text.toList
  let cs := if cs.head? == some '+' then cs.drop 1 else cs
  match cs with
  | '0' :: 'x' :: ds => word64? 16 ds
  | '0' :: 'o' :: ds => word64? 8 ds
  | '0' :: 'b' :: ds => word64? 2 ds
  | '0' :: _ :: _    => none
  | ds               => word64? 10 ds

/-- The text of a scalar without quotes; a block scalar counts if it bears the tag of its
type. -/
def untypedText? (type : String) : Yaml.Node → Option String
  | .scalar _ .plain text   => some text
  | .scalar p .literal text =>
    if p.tag == some ("tag:yaml.org,2002:" ++ type) then some text else none
  | _                       => none

/-- Nothing, or a word for it. -/
def isNull (style : Yaml.Style) (text : String) : Bool :=
  style == .plain && ["", "~", "null", "Null", "NULL"].contains text

/-- A word is the text of a scalar, or a local tag before nothing. -/
def yamlWord? : Yaml.Node → Option String
  | .scalar p style text =>
    match p.tag.map String.toList with
    | some ('!' :: c :: cs) => if isNull style text then some (String.ofList (c :: cs)) else none
    | _                     => some text
  | _ => none

/-- The values of options in a YAML document. -/
def yamlNotation (root : Yaml.Node) : Notation Yaml.Node where
  bool? := fun v => (untypedText? "bool" (root.resolve v)).bind yamlBool?
  size? := fun v => (untypedText? "int" (root.resolve v)).bind yamlSize?
  word? := fun v => yamlWord? (root.resolve v)

/-- The name that a key is. -/
def yamlName? (root key : Yaml.Node) : Option String :=
  match root.resolve key with
  | .scalar _ _ text => some text
  | _                => none

/-- The settings of a YAML document; an empty one has none. -/
def yamlSettings? : Option Yaml.Node → Option (List (String × Yaml.Node))
  | none      => some []
  | some root =>
    match root with
    | .scalar _ .plain "" => some []
    | .mapping _ pairs    => pairs.mapM fun (key, value) => (yamlName? root key).map (·, value)
    | _                   => none

/-- The options of a YAML document. -/
def ofYaml? (document : Option Yaml.Node) : Option Options :=
  (yamlSettings? document).bind (ofSettings? (yamlNotation (document.getD .empty)))

/-! ### TOML -/

/-- A word is a string, or the only key of a table whose value holds nothing. -/
def tomlWord? : Toml.Value → Option String
  | .scalar (.string s)          => some s
  | .table _ [(key, .table _ [])] => some key
  | .table _ [(key, .array _ [])] => some key
  | _                            => none

/-- The values of options in TOML. -/
def tomlNotation : Notation Toml.Value where
  bool? := fun
    | .scalar (.boolean b) => some b
    | _                    => none
  size? := fun
    | .scalar (.integer (.ofNat n)) => if n < wordBound then some n else none
    | _                             => none
  word? := tomlWord?

/-- The options of a TOML document. -/
def ofToml? (t : Toml.Table) : Option Options :=
  ofSettings? tomlNotation t.entries

end SchemaEnums.Config
