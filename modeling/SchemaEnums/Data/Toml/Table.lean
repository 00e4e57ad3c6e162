import SchemaEnums.Data.Toml.Scalar

/-!
# Data — Toml — Table

Tables and the rules for adding to them.  A key is defined once.  A table remembers how it came
about, because that decides who may add to it: a header may complete a table that other headers
only passed through, dotted keys may go on with tables that dotted keys began, and a table
between braces is closed.
-/

namespace SchemaEnums.Data.Toml

/-- How a table came about. -/
inductive Origin where
  /-- It is the document, or a header named it. -/
  | header
  /-- A longer header passed through it. -/
  | passed
  /-- A dotted key passed through it. -/
  | dotted
  /-- It stands between braces. -/
  | braces
  /-- A dotted key between braces passed through it. -/
  | dottedInBraces
deriving Repr, DecidableEq

/-- A value.  An array of tables is made of headers, any other array of brackets. -/
inductive Value where
  | scalar (value : Scalar)
  | array  (ofTables : Bool) (items : List Value)
  | table  (origin : Origin) (entries : List (String × Value))

/-- A table by itself. -/
structure Table where
  origin  : Origin
  entries : List (String × Value)

namespace Table

/-- The table as a value. -/
def toValue (t : Table) : Value := .table t.origin t.entries

/-- The value of a key. -/
def get? (t : Table) (key : String) : Option Value :=
  (t.entries.find? (·.1 == key)).map (·.2)

/-- The table with a key that it does not have yet. -/
def add? (t : Table) (key : String) (v : Value) : Option Table :=
  if (t.get? key).isSome then none else some { t with entries := t.entries ++ [(key, v)] }

/-- The table with another value for a key. -/
def set (t : Table) (key : String) (v : Value) : Table :=
  if (t.get? key).isSome then
    { t with entries := t.entries.map fun e => if e.1 == key then (key, v) else e }
  else { t with entries := t.entries ++ [(key, v)] }

/-- The last item of a list changed. -/
def updateLast {α : Type} (f : α → Option α) : List α → Option (List α)
  | []      => none
  | [a]     => (f a).map ([·])
  | a :: as => (updateLast f as).map (a :: ·)

/-- What a path of keys does on its way to a table. -/
structure Walk where
  /-- Tables that are not there yet come about in this way. -/
  origin : Origin
  /-- The walk may enter tables of these origins. -/
  enters : List Origin

/-- The walk of a header. -/
def Walk.ofHeader : Walk := ⟨.passed, [.header, .passed, .dotted]⟩

/-- The walk of a dotted key. -/
def Walk.ofKey : Walk := ⟨.dotted, [.passed, .dotted]⟩

/-- The walk of a dotted key between braces. -/
def Walk.inBraces : Walk := ⟨.dottedInBraces, [.dottedInBraces]⟩

/-- The table with the one at the end of a path changed.  Through an array of tables the path
leads to its last table. -/
def update (walk : Walk) (f : Table → Option Table) : (path : List String) → Table → Option Table
  | [],          t => f t
  | key :: path, t => do
    match t.get? key with
    | none => do
      let child ← update walk f path ⟨walk.origin, []⟩
      some (t.set key child.toValue)
    | some (.table origin entries) =>
      if walk.enters.contains origin then do
        let child ← update walk f path ⟨origin, entries⟩
        some (t.set key child.toValue)
      else none
    | some (.array true items) => do
      let items ← updateLast (fun
        | .table origin entries => (update walk f path ⟨origin, entries⟩).map toValue
        | _                     => none) items
      some (t.set key (.array true items))
    | some _ => none

/-- The table with a value under a path of keys; a path of several keys ends in a table that
dotted keys made. -/
def assign (walk : Walk) (path : List String) (key : String) (v : Value) (t : Table) :
    Option Table :=
  t.update walk (fun parent =>
    if path.isEmpty || parent.origin == walk.origin then parent.add? key v else none) path

/-- The table that a header begins with: a new one, or one that other headers passed through. -/
def opened (root : Table) (path : List String) (key : String) : Option (List (String × Value)) :=
  match path with
  | [] =>
    match root.get? key with
    | none                          => some []
    | some (.table .passed entries) => some entries
    | some _                        => none
  | name :: path =>
    match root.get? name with
    | none                         => some []
    | some (.table origin entries) => opened ⟨origin, entries⟩ path key
    | some (.array true items)     =>
      match items.getLast? with
      | some (.table origin entries) => opened ⟨origin, entries⟩ path key
      | _                            => none
    | some _                       => none

/-- The document with a finished table under its header. -/
def closed (root : Table) (path : List String) (key : String) (t : Table) : Option Table :=
  root.update .ofHeader (fun parent => some (parent.set key t.toValue)) path

/-- The document with a finished table at the end of the array under its header. -/
def appended (root : Table) (path : List String) (key : String) (t : Table) : Option Table :=
  root.update .ofHeader (fun parent =>
    match parent.get? key with
    | none                     => parent.add? key (.array true [t.toValue])
    | some (.array true items) => some (parent.set key (.array true (items ++ [t.toValue])))
    | some _                   => none) path

end Table

end SchemaEnums.Data.Toml
