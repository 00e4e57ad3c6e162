import SchemaEnums.Schema.Error
import SchemaEnums.Config.Resolve

/-!
# Log

What a run reports about itself.  An `Event` says what happened; its level, its message and the
details that go with it follow from that.
-/

namespace SchemaEnums.Log
open Schema

/-- How much an event matters. -/
inductive Level where
  | error
  | warn
  | info
  | debug
deriving Repr, DecidableEq

/-- The lowest rank that shows events of a level. -/
def Level.rank : Level → Nat
  | error => 1
  | warn  => 2
  | info  => 3
  | debug => 4

/-- The name of a level. -/
def Level.name : Level → String
  | error => "ERROR"
  | warn  => "WARN"
  | info  => "INFO"
  | debug => "DEBUG"

/-- The rank up to which a setting shows events. -/
def rankOf? : String → Option Nat
  | "off"   => some 0
  | "error" => some 1
  | "warn"  => some 2
  | "info"  => some 3
  | "debug" => some 4
  | "trace" => some 5
  | _       => none

/-- Something that happened during a run. -/
inductive Event where
  | schemaRejected (path : String) (error : Schema.Error)
  | configIgnored (path : String) (problem : Config.Problem)
  | outputCurrent (path : String)
  | configUsed (path : String)
  | configMissing
  | optionsResolved (source : Option String)
  | blockSkipped (kind : ModelKind) (name : String)
  | settingsSkipped (kind : ConfigKind) (name : String)
  | schemaParsed (path : String) (models enums : Nat)
  | enumsBuilt (declarations : Nat)
  | outputWritten (path : String) (bytes : Nat)
deriving Repr, DecidableEq

/-- A detail of an event. -/
inductive Detail where
  | text (value : String)
  | count (value : Nat)

/-- What most often is wrong with a schema that is rejected. -/
def aliasHint : String :=
  "Did you attempt to reference to a model without creating an alias? " ++
  "Remember you must define a \"blank\" alias model with only the \"@id\" field in your " ++
  "extended schemas otherwise the schema cannot be parsed."

/-- The name of a kind of block. -/
def kindName : ModelKind → String
  | .model => "Model"
  | .view  => "View"
  | .type  => "CompositeType"

/-- A character inside double quotes: quotes, backslashes and control characters are escaped. -/
def quotedChar (c : Char) : List Char :=
  match c with
  | '"'    => ['\\', '"']
  | '\\'   => ['\\', '\\']
  | '\n'   => ['\\', 'n']
  | '\r'   => ['\\', 'r']
  | '\t'   => ['\\', 't']
  | '\x00' => ['\\', '0']
  | c      =>
    if c < ' ' || c == '\x7f' then
      ['\\', 'u', '{'] ++ Nat.toDigits 16 c.toNat ++ ['}']
    else [c]

/-- A path that may be missing. -/
def optionalPath : Option String → String
  | none      => "None"
  | some path => "Some(\"" ++ String.ofList (path.toList.flatMap quotedChar) ++ "\")"

namespace Event

/-- How much the event matters. -/
def level : Event → Level
  | schemaRejected ..  => .error
  | configIgnored ..   => .warn
  | outputCurrent ..   => .info
  | configUsed ..      => .debug
  | configMissing      => .debug
  | optionsResolved .. => .debug
  | blockSkipped ..    => .debug
  | settingsSkipped .. => .debug
  | schemaParsed ..    => .debug
  | enumsBuilt ..      => .debug
  | outputWritten ..   => .debug

/-- The wording of the event. -/
def message : Event → String
  | schemaRejected _ e => "failed to parse schema. " ++ aliasHint ++ " (" ++ e.message ++ ")"
  | configIgnored _ p  => "ignoring prettier config: " ++ p.message
  | outputCurrent ..   => "output already up to date, nothing written"
  | configUsed ..      => "using prettier config"
  | configMissing      => "no prettier config found, using defaults"
  | optionsResolved .. => "resolved format options"
  | blockSkipped ..    => "skipping non-model block"
  | settingsSkipped .. => "skipping config block"
  | schemaParsed ..    => "parsed schema"
  | enumsBuilt ..      => "built enum declarations"
  | outputWritten ..   => "wrote output"

/-- The details of the event. -/
def details : Event → List (String × Detail)
  | schemaRejected path _      => [("path", .text path)]
  | configIgnored path _       => [("path", .text path)]
  | outputCurrent path         => [("path", .text path)]
  | configUsed path            => [("path", .text path)]
  | configMissing              => []
  | optionsResolved source     => [("source", .text (optionalPath source))]
  | blockSkipped kind name     => [("name", .text name), ("kind", .text (kindName kind))]
  | settingsSkipped kind name  => [("keyword", .text kind.keyword), ("name", .text name)]
  | schemaParsed path models enums =>
    [("path", .text path), ("models", .count models), ("enums", .count enums)]
  | enumsBuilt n               => [("declarations", .count n)]
  | outputWritten path bytes   => [("path", .text path), ("bytes", .count bytes)]

/-- The event is shown up to this rank. -/
def isShown (rank : Nat) (e : Event) : Bool :=
  e.level.rank ≤ rank

end Event

/-- The events of finding a configuration. -/
def ofResolution (r : Config.Resolution) : List Event :=
  r.ignored.map (fun (path, p) => .configIgnored path p) ++
  [match r.source with
    | some path => .configUsed path
    | none      => .configMissing]

end SchemaEnums.Log
