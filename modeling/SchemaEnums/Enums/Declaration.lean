/-!
# Enums — Declaration

An enum of the generated file: a name and members, each an identifier and the text it stands for.
`Declaration.make` gives every value of a list a member, and refuses a value whose identifier is
not one or is taken; `Clash` says which.
-/

namespace SchemaEnums.Enums

/-- A member `identifier = value`. -/
structure Member where
  identifier : String
  value      : String
deriving Repr, DecidableEq

/-- An enum of the generated file. -/
structure Declaration where
  name    : String
  members : List Member
deriving Repr, DecidableEq

/-- What the generated file declares and exports. -/
structure EnumFile where
  declarations : List Declaration
deriving Repr, DecidableEq

/-- The names in the file's export. -/
def EnumFile.exports (f : EnumFile) : List String :=
  f.declarations.map (·.name)

/-- Why a list of values gives no enum. -/
inductive Clash where
  /-- Two values become the same member. -/
  | duplicate (declaration identifier first second : String)
  /-- The name made from a value is no identifier. -/
  | invalid (declaration value identifier : String)
deriving Repr, DecidableEq

/-- The wording of a clash. -/
def Clash.message : Clash → String
  | duplicate declaration identifier first second =>
    "enum `" ++ declaration ++ "`: '" ++ first ++ "' and '" ++ second ++
    "' both become member `" ++ identifier ++ "`"
  | invalid declaration value identifier =>
    "enum `" ++ declaration ++ "`: '" ++ value ++ "' does not produce a valid member name (got `" ++
    identifier ++ "`)"

/-- A first character of an identifier: a letter of ASCII, an underscore or a dollar sign. -/
def isIdentifierStart (c : Char) : Bool :=
  c.isAlpha || c == '_' || c == '$'

/-- A later character of an identifier: digits may stand there too. -/
def isIdentifierChar (c : Char) : Bool :=
  c.isAlphanum || c == '_' || c == '$'

/-- An identifier over ASCII. -/
def isIdentifier (s : String) : Bool :=
  match s.toList with
  | []        => false
  | c :: rest => isIdentifierStart c && rest.all isIdentifierChar

/-- Members for the values, where `seen` holds the members before them. -/
def membersFrom (declaration : String) (identifier : String → String) (seen : List Member) :
    List String → Except Clash (List Member)
  | []              => .ok []
  | value :: values =>
    let m : Member := ⟨identifier value, value⟩
    if isIdentifier m.identifier then
      match seen.find? (·.identifier == m.identifier) with
      | some first => .error (.duplicate declaration m.identifier first.value value)
      | none       => (membersFrom declaration identifier (m :: seen) values).map (m :: ·)
    else .error (.invalid declaration value m.identifier)

/-- The enum whose members stand for the values, in their order. -/
def Declaration.make (name : String) (identifier : String → String) (values : List String) :
    Except Clash Declaration :=
  (membersFrom name identifier [] values).map (⟨name, ·⟩)

end SchemaEnums.Enums
