import SchemaEnums.Data.Toml.Table

/-!
# Data — Toml — Document

Reading a document: lines that assign a value to a key, and headers that name the table which the
lines after them belong to.
-/

namespace SchemaEnums.Data.Toml
open Text

/-! ### Space -/

/-- The place after blanks and a comment, which must not hold control characters; a line break or
the end of the text follows. -/
def lineTail? (c : Cursor) : Option Cursor :=
  let c := skip c
  let c := if c.rest.head? == some '#' then c.skipWhile isVisible else c
  if c.rest.isEmpty then some c else (lineBreak c).map (·.2)

/-- The place after blanks, comments and line breaks. -/
def gap (c : Cursor) : Cursor :=
  let line : Reader Unit := fun c => do
    let c' ← lineTail? c
    if c'.rest.isEmpty then none else some ((), c')
  skip (Reader.many id line c).2

/-! ### Keys -/

/-- A character of a key without quotes. -/
def isKeyChar (c : Char) : Bool :=
  c.isAlphanum || c == '_' || c == '-'

/-- One part of a key. -/
def simpleKey : Reader String := fun c =>
  if c.rest.head? == some '"' || c.rest.head? == some '\'' then simpleString c
  else
    let (name, c) := c.run isKeyChar
    if name.isEmpty then none else some (String.ofList name, c)

/-- A key: its parts but the last, and the last. -/
def key : Reader (List String × String) := fun c => do
  let (first, c) ← simpleKey c
  let (more, c) := Reader.many skip (fun c => do simpleKey (skip (← c.eat? ['.']))) c
  let parts := first :: more
  some ((parts.dropLast, parts.getLastD first), c)

/-! ### Values -/

/-- The table of the assignments between braces. -/
def bracedTable (pairs : List ((List String × String) × Value)) : Option Table :=
  pairs.foldlM (fun t ((path, key), v) => t.assign .inBraces path key v) ⟨.braces, []⟩

/-- Items in brackets, separated by commas; one more comma may follow the last item. -/
def bracketed {α : Type} (opening closing : Char) (item : Reader α) : Reader (List α) := fun c => do
  let c ← c.eat? [opening]
  match (gap c).eat? [closing] with
  | some c => some ([], c)
  | none   => do
    let (first, c) ← item (gap c)
    let (more, c) := Reader.many gap (fun c => do item (gap (← c.eat? [',']))) c
    let c := ((gap c).eat? [',']).getD c
    let c ← (gap c).eat? [closing]
    some (first :: more, c)

/-- A key, an equals sign and what `value` reads. -/
def assignment (value : Reader Value) : Reader ((List String × String) × Value) := fun c => do
  let (key, c) ← key c
  let c ← (skip c).eat? ['=']
  let (v, c) ← value (skip c)
  some ((key, v), c)

/-- A value with at most `depth` brackets around each other. -/
def valueWithin : (depth : Nat) → Reader Value
  | 0         => fun c => (scalar c).map fun (x, c) => (.scalar x, c)
  | depth + 1 => fun c =>
    match c.rest.head? with
    | some '[' =>
      (bracketed '[' ']' (valueWithin depth) c).map fun (vs, c) => (.array false vs, c)
    | some '{' => do
      let (pairs, c) ← bracketed '{' '}' (assignment (valueWithin depth)) c
      let t ← bracedTable pairs
      some (t.toValue, c)
    | _        => (scalar c).map fun (x, c) => (.scalar x, c)

/-- A value; brackets are at most 80 deep. -/
def value : Reader Value :=
  valueWithin 80

/-! ### Lines -/

/-- A header: its table is one of an array or not, and its path. -/
structure Header where
  isArray : Bool
  path    : List String
  key     : String

/-- A header in its brackets. -/
def header : Reader Header := fun c => do
  match c.eat? ['[', '['] with
  | some c => do
    let ((path, key), c) ← key (skip c)
    let c ← (skip c).eat? [']', ']']
    some (⟨true, path, key⟩, c)
  | none   => do
    let c ← c.eat? ['[']
    let ((path, key), c) ← key (skip c)
    let c ← (skip c).eat? [']']
    some (⟨false, path, key⟩, c)

/-- The document so far, and the table that lines belong to. -/
structure State where
  root    : Table
  header  : Option Header
  current : Table

/-- The document with its last table. -/
def State.finish (s : State) : Option Table :=
  match s.header with
  | none   => some s.current
  | some h =>
    if h.isArray then s.root.appended h.path h.key s.current
    else s.root.closed h.path h.key s.current

/-- The state after a header. -/
def State.begin (s : State) (h : Header) : Option State := do
  let root ← s.finish
  let entries ← if h.isArray then some [] else root.opened h.path h.key
  some ⟨root, some h, ⟨.header, entries⟩⟩

/-- The lines of a document, at most `n` of them. -/
def linesWithin : (n : Nat) → State → Cursor → Option Table
  | 0,     s, _ => s.finish
  | n + 1, s, c => do
    let c := skip c
    let (s, c) ← match c.rest.head? with
      | none      => some (s, c)
      | some '#'  => some (s, c)
      | some '\n' => some (s, c)
      | some '\r' => some (s, c)
      | some '['  => do
        let (h, c) ← header c
        some (← s.begin h, c)
      | some _    => do
        let (((path, key), v), c) ← assignment value c
        let current ← s.current.assign .ofKey path key v
        some ({ s with current }, c)
    let c ← lineTail? c
    if c.rest.isEmpty then s.finish else linesWithin n s c

mutual

/-- Every number of a value can be told: no float is too large. -/
def Value.isFinite : Value → Bool
  | .scalar (.float finite) => finite
  | .scalar _               => true
  | .array _ items          => areFinite items
  | .table _ entries        => entriesAreFinite entries

/-- Every number in a list of values can be told. -/
def areFinite : List Value → Bool
  | []      => true
  | v :: vs => v.isFinite && areFinite vs

/-- Every number in the entries of a table can be told. -/
def entriesAreFinite : List (String × Value) → Bool
  | []           => true
  | (_, v) :: es => v.isFinite && entriesAreFinite es

end

/-- The table that a text holds, which may begin with a byte order mark. -/
def Table.read (text : String) : Option Table := do
  let text := match text.toList with
    | '\ufeff' :: rest => rest
    | text             => text
  let t ← linesWithin (text.length + 1) ⟨⟨.header, []⟩, none, ⟨.header, []⟩⟩ (.ofText text)
  if entriesAreFinite t.entries then some t else none

end SchemaEnums.Data.Toml
