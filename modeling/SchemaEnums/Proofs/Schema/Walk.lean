import SchemaEnums.Proofs.Schema.Rules

/-!
# Schema — Walk

From the tree that the rules leave to what a schema says.  A walk goes through the parts of a pair
one after another and stops at the first fault.  It has no answer for a rule that cannot be there,
or for a part that is missing: then it stops as `impossible`.
-/

namespace SchemaEnums.Schema.Walk
open Text Text.Peg Grammar Literal
open Rule (Tree)

/-- Why a walk stops. -/
inductive Stop where
  | fault (error : SyntaxError)
  | impossible
deriving Repr, DecidableEq

/-- What a walk has found. -/
abbrev Walked (α : Type) := Except Stop α

variable {α : Type}

/-- A walk may stop at what is wrong with a schema. -/
def ofChecked (a : Checked α) : Walked α := a.mapError .fault

variable {β : Type}

theorem ofChecked_map (f : α → β) (a : Checked α) : ofChecked (a.map f) = (ofChecked a).map f := by
  cases a <;> rfl

/-! ### Values -/

/-- A string, decoded; what is wrong with it is reported at its content. -/
def string : List Tree → Walked String
  | ⟨_, position, text, _⟩ :: _ =>
    ofChecked (((decode text).map String.ofList).mapError (⟨position, ·⟩))
  | []                          => .error .impossible

mutual

/-- The value of an expression is its first part. -/
def expression : List Tree → Walked Expression
  | first :: _ => value first
  | []         => .error .impossible

def value : Tree → Walked Expression
  | ⟨.numericLiteral, _, text, _⟩   => .ok (.number (String.ofList text))
  | ⟨.stringLiteral, _, _, parts⟩   => (string parts).map .string
  | ⟨.path, _, text, _⟩             => .ok (.constant (String.ofList text))
  | ⟨.functionCall, _, _, parts⟩    => call none [] parts
  | ⟨.arrayExpression, _, _, parts⟩ => (elements parts).map .array
  | _                               => .error .impossible

def elements : List Tree → Walked (List Expression)
  | []                       => .ok []
  | ⟨_, _, _, parts⟩ :: rest => do
    let e ← expression parts
    let es ← elements rest
    .ok (e :: es)

def call (name : Option String) (arguments : List Argument) : List Tree → Walked Expression
  | []                                    =>
    match name with
    | some name => .ok (.call name arguments)
    | none      => .error .impossible
  | ⟨.path, _, text, _⟩ :: rest           => call (some (String.ofList text)) arguments rest
  | ⟨.argumentsList, _, _, parts⟩ :: rest => do
    let arguments ← argumentsList parts
    call name arguments rest
  | _ :: _                                => .error .impossible

def argumentsList : List Tree → Walked (List Argument)
  | []                       => .ok []
  | ⟨_, _, _, parts⟩ :: rest => do
    let a ← argument none none parts
    let as ← argumentsList rest
    .ok (a :: as)

def argument (name : Option String) (value : Option Expression) : List Tree → Walked Argument
  | []                                  =>
    match value with
    | some value => .ok (.mk name value)
    | none       => .error .impossible
  | ⟨.argumentName, _, text, _⟩ :: rest => argument (some (String.ofList text)) value rest
  | ⟨.expression, _, _, parts⟩ :: rest  => do
    let value ← expression parts
    argument name (some value) rest
  | _ :: _                              => .error .impossible

end

/-! ### Lines -/

def attributePart (a : Attribute) : Tree → Walked Attribute
  | ⟨.attributePath, _, text, _⟩  => .ok { a with name := String.ofList text }
  | ⟨.argumentsList, _, _, parts⟩ => do
    let arguments ← argumentsList parts
    .ok { a with arguments := arguments }
  | _                             => .error .impossible

/-- An attribute of a field, a value or a block. -/
def attributeOf (parts : List Tree) : Walked Attribute :=
  parts.foldlM attributePart ⟨"", []⟩

/-- What has been found of a field. -/
structure FieldParts where
  name       : Option Identifier
  type       : Option Identifier
  arity      : Arity
  attributes : List Attribute

def typePart (f : FieldParts) : Tree → Walked FieldParts
  | ⟨.identifier, position, text, _⟩   => .ok { f with type := some ⟨String.ofList text, position⟩ }
  | ⟨.unsupportedType, position, _, _⟩ => .ok { f with type := some ⟨"Unsupported", position⟩ }
  | ⟨.listMarker, _, _, _⟩             => .ok { f with arity := .list }
  | ⟨.optionalMarker, _, _, _⟩         => .ok { f with arity := .optional }
  | _                                  => .error .impossible

def fieldPart (f : FieldParts) : Tree → Walked FieldParts
  | ⟨.identifier, position, text, _⟩ => .ok { f with name := some ⟨String.ofList text, position⟩ }
  | ⟨.fieldType, _, _, parts⟩        => parts.foldlM typePart f
  | ⟨.fieldAttribute, _, _, parts⟩   => do
    let a ← attributeOf parts
    .ok { f with attributes := f.attributes ++ [a] }
  | _                                => .error .impossible

def field (parts : List Tree) : Walked Field := do
  let f ← parts.foldlM fieldPart ⟨none, none, .required, []⟩
  match f.name, f.type with
  | some name, some type => .ok ⟨name, type, f.arity, f.attributes⟩
  | _, _                 => .error .impossible

def enumValuePart (v : Option Identifier × List Attribute) :
    Tree → Walked (Option Identifier × List Attribute)
  | ⟨.identifier, position, text, _⟩ => .ok (some ⟨String.ofList text, position⟩, v.2)
  | ⟨.fieldAttribute, _, _, parts⟩   => do
    let a ← attributeOf parts
    .ok (v.1, v.2 ++ [a])
  | _                                => .error .impossible

def enumValue (parts : List Tree) : Walked EnumValue := do
  let v ← parts.foldlM enumValuePart (none, [])
  match v.1 with
  | some name => .ok ⟨name, v.2⟩
  | none      => .error .impossible

def settingPart (s : Option Identifier × Option Expression) :
    Tree → Walked (Option Identifier × Option Expression)
  | ⟨.identifier, position, text, _⟩ => .ok (some ⟨String.ofList text, position⟩, s.2)
  | ⟨.expression, _, _, parts⟩       => do
    let value ← expression parts
    .ok (s.1, some value)
  | _                                => .error .impossible

def setting (parts : List Tree) : Walked Setting := do
  let s ← parts.foldlM settingPart (none, none)
  match s.1, s.2 with
  | some key, some value => .ok ⟨key, value⟩
  | _, _                 => .error .impossible

/-! ### Blocks -/

/-- A line of a block with fields. -/
def modelLine : Tree → Walked (Line Field)
  | ⟨.fieldDeclaration, _, _, parts⟩       => (field parts).map .item
  | ⟨.blockAttribute, _, _, parts⟩         => (attributeOf parts).map .blockAttribute
  | ⟨.blockLevelCatchAll, position, _, _⟩ => .error (.fault ⟨position, .notField⟩)
  | _                                      => .error .impossible

/-- A line of an enum. -/
def enumLine : Tree → Walked (Line EnumValue)
  | ⟨.enumValueDeclaration, _, _, parts⟩   => (enumValue parts).map .item
  | ⟨.blockAttribute, _, _, parts⟩         => (attributeOf parts).map .blockAttribute
  | ⟨.blockLevelCatchAll, position, _, _⟩ => .error (.fault ⟨position, .notEnumValue⟩)
  | _                                      => .error .impossible

/-- A line of a configuration block. -/
def configLine (keyword : Option Keyword) : Tree → Walked Setting
  | ⟨.keyValue, _, _, parts⟩               => setting parts
  | ⟨.blockLevelCatchAll, position, _, _⟩ =>
    match keyword with
    | some (.config kind) => .error (.fault ⟨position, .notSetting kind⟩)
    | _                   => .error .impossible
  | _                                      => .error .impossible

/-- The lines of a block, one after another. -/
def lines (line : Tree → Walked α) : List Tree → Walked (List α)
  | []      => .ok []
  | t :: ts => do
    let a ← line t
    let as ← lines line ts
    .ok (a :: as)

/-- What has been found of a block. -/
structure BlockParts (α : Type) where
  keyword : Option Keyword
  name    : Option Identifier
  lines   : List α

/-- A part of a block that opens with one of some keywords and has contents of a kind. -/
def blockPart (accepts : Keyword → Bool) (contents : Rule)
    (line : Option Keyword → Tree → Walked α) (b : BlockParts α) : Tree → Walked (BlockParts α)
  | ⟨.keyword k, _, _, _⟩                =>
    if accepts k then .ok { b with keyword := some k } else .error .impossible
  | ⟨.identifier, position, text, _⟩     =>
    .ok { b with name := some ⟨String.ofList text, position⟩ }
  | ⟨.blockOpen, _, _, _⟩                => .ok b
  | ⟨.blockClose, _, _, _⟩               => .ok b
  | ⟨.missingBlockClose, position, _, _⟩ => .error (.fault ⟨position, .missingBrace⟩)
  | ⟨rule, _, _, parts⟩                  =>
    if rule = contents then do
      let ls ← lines (line b.keyword) parts
      .ok { b with lines := b.lines ++ ls }
    else .error .impossible

def Keyword.isModel : Keyword → Bool
  | .model _ => true
  | _        => false

def Keyword.isConfig : Keyword → Bool
  | .config _ => true
  | _         => false

/-- A block with fields. -/
def model (parts : List Tree) : Walked Block := do
  let b ← parts.foldlM (blockPart Keyword.isModel .modelContents fun _ => modelLine) ⟨none, none, []⟩
  match b.keyword, b.name with
  | some (.model kind), some name =>
    .ok (.model ⟨kind, name, Line.items b.lines, Line.attributes b.lines⟩)
  | _, _ => .error .impossible

/-- An enum. -/
def enum (parts : List Tree) : Walked Block := do
  let b ← parts.foldlM (blockPart (· == .enum) .enumContents fun _ => enumLine) ⟨none, none, []⟩
  match b.name with
  | some name => .ok (.enum ⟨name, Line.items b.lines, Line.attributes b.lines⟩)
  | none      => .error .impossible

/-- A configuration block. -/
def config (parts : List Tree) : Walked Block := do
  let b ← parts.foldlM (blockPart Keyword.isConfig .configContents configLine) ⟨none, none, []⟩
  match b.keyword, b.name with
  | some (.config kind), some name => .ok (.config ⟨kind, name, b.lines⟩)
  | _, _                           => .error .impossible

/-! ### Schemas -/

/-- The text of the first part. -/
def firstText : List Tree → String
  | ⟨_, _, text, _⟩ :: _ => String.ofList text
  | []                   => ""

/-- A block, or nothing at the end. -/
def top : Tree → Walked (Option Block)
  | ⟨.modelDeclaration, _, _, parts⟩     => (model parts).map some
  | ⟨.enumDeclaration, _, _, parts⟩      => (enum parts).map some
  | ⟨.configBlock, _, _, parts⟩          => (config parts).map some
  | ⟨.arbitraryBlock, position, _, parts⟩ =>
    .error (.fault ⟨position, .unknownKeyword (firstText parts)⟩)
  | ⟨.catchAll, position, _, _⟩          => .error (.fault ⟨position, .strayLine⟩)
  | ⟨.endOfInput, _, _, _⟩               => .ok none
  | _                                    => .error .impossible

def tops : List Tree → Walked (List Block)
  | []      => .ok []
  | t :: ts => do
    let b ← top t
    let bs ← tops ts
    .ok (b.toList ++ bs)

/-- What the tree of a text says. -/
def document : List Tree → Walked Document
  | ⟨_, _, _, parts⟩ :: _ => (tops parts).map .mk
  | []                    => .ok ⟨[]⟩

end SchemaEnums.Schema.Walk
