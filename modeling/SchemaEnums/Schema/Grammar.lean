import SchemaEnums.Text.Cursor
import SchemaEnums.Schema.Literal

/-!
# Schema — Grammar

Reading a schema.  A schema is read block by block and a block line by line, and the first line
that fits no rule ends the reading with a fault at its place; so every text gets an answer.

Between the words of a rule `skip` passes blanks and a comment but no line break; inside brackets
`gap` passes line breaks too.  Nothing is skipped inside a name, a number, a string, between an
attribute's marker and its path, and before the bracket of its arguments.

Strings are decoded only after the line that holds them has been accepted: a reader of a value
yields a `Checked` one.
-/

namespace SchemaEnums.Schema.Grammar
open Text Literal

variable {α : Type}

/-! ### Characters -/

/-- The first character of a name. -/
def isNameStart (c : Char) : Bool :=
  c.isAlpha || c == '_'

/-- A later character of a name. -/
def isNameChar (c : Char) : Bool :=
  c.isAlphanum || c == '_' || c == '-'

/-- A space or a tab. -/
def isSpace (c : Char) : Bool :=
  c == ' ' || c == '\t'

/-! ### Between words -/

/-- One line break: a line feed, a carriage return, or both in this order. -/
def lineBreak : Reader Unit := fun c =>
  match c.rest with
  | '\r' :: '\n' :: _ => some ((), c.advance 2)
  | x :: _            => if isLineBreak x then some ((), c.advance 1) else none
  | []                => none

/-- The place after blanks and a comment, which runs up to the line break. -/
def skip (c : Cursor) : Cursor :=
  let c := c.skipWhile isSpace
  match c.rest with
  | '/' :: '/' :: _ => c.skipWhile (!isLineBreak ·)
  | _               => c

/-- The place after blanks, comments and line breaks. -/
def gap (c : Cursor) : Cursor :=
  skip (Reader.many skip lineBreak c).2

/-! ### Words -/

/-- A name and its place. -/
def identifier : Reader Identifier := fun c =>
  match c.rest with
  | x :: _ =>
    if isNameStart x then
      let (name, c') := c.run isNameChar
      some (⟨String.ofList name, c.position⟩, c')
    else none
  | [] => none

/-- Names joined by dots. -/
def path : Reader String := fun c => do
  let (first, c) ← identifier c
  let (more, c) := Reader.many id (fun c => do identifier (← c.eat? ['.'])) c
  some (".".intercalate (first.name :: more.map (·.name)), c)

/-- A minus sign, or nothing. -/
def sign (c : Cursor) : List Char × Cursor :=
  match c.eat? ['-'] with
  | some c => (['-'], c)
  | none   => ([], c)

/-- A point and the digits behind it, or nothing. -/
def fraction (c : Cursor) : List Char × Cursor :=
  match c.rest with
  | '.' :: x :: _ =>
    if x.isDigit then
      let (digits, c) := (c.advance 1).run Char.isDigit
      ('.' :: digits, c)
    else ([], c)
  | _ => ([], c)

/-- Digits, and a sign before them and a fraction after them if there are any. -/
def number : Reader String := fun c =>
  let (sign, c) := sign c
  let (whole, c) := c.run Char.isDigit
  if whole.isEmpty then none
  else
    let (fraction, c) := fraction c
    some (String.ofList (sign ++ whole ++ fraction), c)

/-- The body of a string literal and the place where it begins. -/
def stringBody : Reader (List Char × Position) := fun c => do
  let c ← c.eat? ['"']
  let n := bodyLength c.rest
  let c' ← (c.advance n).eat? ['"']
  some ((c.rest.take n, c.position), c')

/-- A string literal, decoded. -/
def string : Reader (Checked String) := fun c => do
  let ((body, position), c) ← stringBody c
  some (((decode body).map String.ofList).mapError (⟨position, ·⟩), c)

/-! ### Values -/

/-- Items in brackets, separated by commas; one more comma may follow the last item. -/
def bracketed (opening closing : Char) (item : Reader α) : Reader (List α) :=
  Reader.listed gap opening closing item

/-- The name of an argument and its colon. -/
def argumentName : Reader String := fun c => do
  let (name, c) ← identifier c
  let c ← (skip c).eat? [':']
  some (name.name, skip c)

/-- An argument whose value `value` reads. -/
def argument (value : Reader (Checked Expression)) : Reader (Checked Argument) := fun c => do
  let (name, c) := match argumentName c with
    | some (name, c) => (some name, c)
    | none           => (none, c)
  let (value, c) ← value c
  some (value.map (.mk name), c)

/-- A call, whose arguments have values that `value` reads. -/
def call (value : Reader (Checked Expression)) : Reader (Checked Expression) := fun c => do
  let (name, c) ← path c
  let (arguments, c) ← bracketed '(' ')' (argument value) (skip c)
  some ((Checked.all arguments).map (.call name), c)

/-- An array, whose elements `value` reads. -/
def array (value : Reader (Checked Expression)) : Reader (Checked Expression) := fun c => do
  let (elements, c) ← bracketed '[' ']' value c
  some ((Checked.all elements).map .array, c)

/-- A call, an array, a number, a string or a constant, in this order of preference, within fewer
brackets than `bound` has characters. -/
def expressionWithin : (bound : List Char) → Reader (Checked Expression)
  | []         => fun _ => none
  | _ :: bound => fun c =>
    call (expressionWithin bound) c <|>
    array (expressionWithin bound) c <|>
    ((number c).map fun (text, c) => (.ok (.number text), c)) <|>
    ((string c).map fun (text, c) => (text.map .string, c)) <|>
    ((path c).map fun (name, c) => (.ok (.constant name), c))

/-- A value.  Fewer brackets can open before it than there are characters left. -/
def expression : Reader (Checked Expression) := fun c =>
  expressionWithin c.rest c

/-- The arguments of an attribute. -/
def arguments : Reader (Checked (List Argument)) := fun c => do
  let (arguments, c) ← bracketed '(' ')' (argument expression) c
  some (Checked.all arguments, c)

/-- An attribute behind its marker; empty brackets say the same as none. -/
def attributeAfter (marker : List Char) : Reader (Checked Attribute) := fun c => do
  let c ← c.eat? marker
  let (name, c) ← path c
  match arguments c with
  | some (arguments, c) => some (arguments.map (⟨name, ·⟩), c)
  | none                => some (.ok ⟨name, []⟩, c)

/-- The attributes of a field or of an enum's value. -/
def attributes (c : Cursor) : Checked (List Attribute) × Cursor :=
  let (attributes, c) := Reader.many skip (attributeAfter ['@']) c
  (Checked.all attributes, c)

/-! ### Lines -/

/-- `Unsupported("…")`, whose string is not looked at. -/
def unsupported : Reader Identifier := fun c => do
  let c₁ ← c.eat? "Unsupported".toList
  let c₁ ← c₁.eat? ['(']
  let (_, c₁) ← stringBody c₁
  let c₁ ← c₁.eat? [')']
  some (⟨"Unsupported", c.position⟩, c₁)

/-- The mark behind a type that says how many values there are. -/
def arity (c : Cursor) : Arity × Cursor :=
  let list? := do (skip (← c.eat? ['['])).eat? [']']
  match list?, c.eat? ['?'] with
  | some c, _      => (.list, c)
  | none,   some c => (.optional, c)
  | none,   none   => (.required, c)

/-- A field of a model. -/
def field : Reader (Checked Field) := fun c => do
  let (name, c) ← identifier c
  let (type, c) ← unsupported (skip c) <|> identifier (skip c)
  let (arity, c) := arity (skip c)
  let (attributes, c) := attributes c
  some (attributes.map (⟨name, type, arity, ·⟩), c)

/-- A value of an enum. -/
def enumValue : Reader (Checked EnumValue) := fun c => do
  let (name, c) ← identifier c
  let (attributes, c) := attributes c
  some (attributes.map (⟨name, ·⟩), c)

/-- A setting of a configuration block. -/
def setting : Reader (Checked Setting) := fun c => do
  let (key, c) ← identifier c
  let c ← (skip c).eat? ['=']
  let (value, c) ← expression (skip c)
  some (value.map (⟨key, ·⟩), c)

/-- What a line of a model or enum says: an item of its own, or an attribute of the block. -/
inductive Line (α : Type) where
  | item           (item : α)
  | blockAttribute (value : Attribute)

/-- An item, or an attribute of the block. -/
def line (item : Reader (Checked α)) : Reader (Checked (Line α)) := fun c =>
  ((item c).map fun (a, c) => (a.map .item, c)) <|>
  ((attributeAfter ['@', '@'] c).map fun (a, c) => (a.map .blockAttribute, c))

/-- The items among the lines. -/
def Line.items (lines : List (Line α)) : List α :=
  lines.filterMap fun
    | item a           => some a
    | blockAttribute _ => none

/-- The block attributes among the lines. -/
def Line.attributes (lines : List (Line α)) : List Attribute :=
  lines.filterMap fun
    | item _           => none
    | blockAttribute a => some a

/-! ### Blocks -/

/-- The place where a line ends: after a line break, or before a closing brace or the end. -/
def lineEnd (c : Cursor) : Option Cursor :=
  match c.rest with
  | []       => some c
  | '}' :: _ => some c
  | _        => (lineBreak c).map (·.2)

/-- The lines up to a closing brace or the end of the text, at most one for each character of
`bound`; a line that `read` does not take whole is the given fault. -/
def linesWithin (read : Reader (Checked α)) (fault : Fault) : (bound : List Char) → Cursor →
    Checked (List α × Cursor)
  | [],         c => .ok ([], c)
  | _ :: bound, c =>
    let c := skip c
    let whole? := do
      let (a, c) ← read c
      let c ← lineEnd (skip c)
      some (a, c)
    match whole? with
    | some (a, c) => do
      let a ← a
      let (as, c) ← linesWithin read fault bound c
      .ok (a :: as, c)
    | none =>
      match lineBreak c with
      | some ((), c) => linesWithin read fault bound c
      | none         => if (lineEnd c).isSome then .ok ([], c) else .error ⟨c.position, fault⟩

/-- The lines of a block and its closing brace. -/
def lines (read : Reader (Checked α)) (fault : Fault) (c : Cursor) :
    Checked (List α × Cursor) := do
  let (as, c) ← linesWithin read fault c.rest c
  match c.eat? ['}'] with
  | some c => .ok (as, c)
  | none   => .error ⟨c.position, .missingBrace⟩

/-- The words that open a block. -/
inductive Keyword where
  | model (kind : ModelKind)
  | enum
  | config (kind : ConfigKind)
deriving Repr, DecidableEq

/-- The keyword that a word is. -/
def Keyword.ofWord? : String → Option Keyword
  | "model"      => some (.model .model)
  | "view"       => some (.model .view)
  | "type"       => some (.model .type)
  | "enum"       => some .enum
  | "datasource" => some (.config .datasource)
  | "generator"  => some (.config .generator)
  | _            => none

/-- The rest of a block, from its opening brace on. -/
def body (keyword : Keyword) (name : Identifier) (c : Cursor) : Checked (Block × Cursor) :=
  match keyword with
  | .model kind => do
    let (ls, c) ← lines (line field) .notField c
    .ok (.model ⟨kind, name, Line.items ls, Line.attributes ls⟩, c)
  | .enum => do
    let (ls, c) ← lines (line enumValue) .notEnumValue c
    .ok (.enum ⟨name, Line.items ls, Line.attributes ls⟩, c)
  | .config kind => do
    let (settings, c) ← lines setting (.notSetting kind) c
    .ok (.config ⟨kind, name, settings⟩, c)

/-- The opening of a block: two names and a brace on one line. -/
def opening : Reader (Identifier × Identifier) := fun c => do
  let (word, c) ← identifier c
  let (name, c) ← identifier (skip c)
  let c ← (skip c).eat? ['{']
  some ((word, name), c)

/-- A closing brace follows, outside comments. -/
def closes (inComment : Bool) : List Char → Bool
  | []        => false
  | c :: rest =>
    if inComment then closes (!isLineBreak c) rest
    else if c == '}' then true
    else closes (c == '/' && rest.head? == some '/') rest

/-- Why the line here opens no block. -/
def openingFault (c : Cursor) : Fault :=
  match opening c with
  | some ((word, _), c) => if closes false c.rest then .unknownKeyword word.name else .strayLine
  | none                => .strayLine

/-- The blocks up to the end of the text, at most one block or empty line for each character of
`bound`. -/
def blocksWithin : (bound : List Char) → Cursor → Checked (List Block)
  | [],         _ => .ok []
  | _ :: bound, c =>
    let c := skip c
    match c.rest, lineBreak c with
    | [], _            => .ok []
    | _, some ((), c') => blocksWithin bound c'
    | _, none          =>
      match (opening c).bind fun ((word, name), c') =>
          (Keyword.ofWord? word.name).map (·, name, c') with
      | some (keyword, name, c') => do
        let (block, c') ← body keyword name c'
        let blocks ← blocksWithin bound c'
        .ok (block :: blocks)
      | none => .error ⟨c.position, openingFault c⟩

end Grammar

open Text Grammar

/-- The text without the byte order mark that may stand before it. -/
def withoutMark : List Char → List Char
  | '\ufeff' :: rest => rest
  | text             => text

/-- The schema that a text holds, or its first fault. -/
def Document.parse (text : String) : Checked Document :=
  let c := Cursor.ofText (withoutMark text.toList)
  (blocksWithin c.rest c).map .mk

end SchemaEnums.Schema
