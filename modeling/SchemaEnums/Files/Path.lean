/-!
# Files — Path

Paths as they are written: names separated by slashes.  Empty names and single dots say nothing,
except for a dot at the very beginning, and are passed over at the end of a path.

`parent?` and `fileName?` take the last name off a path; `temporary` is the path beside it that a
file is first written to.
-/

namespace SchemaEnums.Files.Path

/-! ### Names -/

/-- The text between the slashes. -/
def split : List Char → List (List Char)
  | []        => [[]]
  | c :: rest =>
    if c = '/' then [] :: split rest
    else
      match split rest with
      | []      => [[c]]
      | n :: ns => (c :: n) :: ns

/-- The names of a path; the first is empty if the path begins with a slash. -/
def names (path : String) : List String :=
  (split path.toList).map String.ofList

/-- The path with these names. -/
def ofNames (names : List String) : String :=
  "/".intercalate names

/-- A name that says nothing. -/
def isTrivial (name : String) : Bool :=
  name == "" || name == "."

/-- The names without trivial ones at the end; the first stays. -/
def trimmed : List String → List String
  | []      => []
  | n :: ns =>
    n :: (ns.reverse.dropWhile isTrivial).reverse

/-- The path is counted from the root. -/
def isAbsolute (path : String) : Bool :=
  path.toList.head? == some '/'

/-- The path without its last name. -/
def parent? (path : String) : Option String :=
  match trimmed (names path) with
  | []   => none
  | [""] => none
  | [_]  => some ""
  | ns   =>
    match trimmed ns.dropLast with
    | [""] => some "/"
    | ns   => some (ofNames ns)

/-- The last name, unless it leads to another directory. -/
def fileName? (path : String) : Option String :=
  match (trimmed (names path)).getLast? with
  | some n => if isTrivial n || n == ".." then none else some n
  | none   => none

/-- The path and those of the directories around it, from the inside out. -/
def ancestorsWithin : (n : Nat) → String → List String
  | 0,     path => [path]
  | n + 1, path =>
    match parent? path with
    | some p => path :: ancestorsWithin n p
    | none   => [path]

/-- The path and those of the directories around it; there are no more than it has names. -/
def ancestors (path : String) : List String :=
  ancestorsWithin (names path).length path

/-- The path of `name` in a directory. -/
def join (directory name : String) : String :=
  if isAbsolute name || directory == "" then name
  else if directory.toList.getLast? == some '/' then directory ++ name
  else directory ++ "/" ++ name

/-! ### Extensions -/

/-- A file name cut at its last dot: what stands before it, and the extension after it.  A name
whose only dot is its first character has no extension, and neither has `..`. -/
def cut (name : List Char) : List Char × Option (List Char) :=
  let after := (name.reverse.takeWhile (· != '.')).reverse
  let before := name.take (name.length - after.length - 1)
  if name == ['.', '.'] || after.length == name.length || before.isEmpty then (name, none)
  else (before, some after)

/-- The extension of the file name. -/
def extension? (path : String) : Option String :=
  (fileName? path).bind fun n => (cut n.toList).2.map String.ofList

/-- The path up to the end of its file name's stem. -/
def upToStem? (path : String) : Option String :=
  (fileName? path).map fun n =>
    ofNames ((trimmed (names path)).dropLast ++ [String.ofList (cut n.toList).1])

/-- The path with another extension.  As many characters as the extension has are taken off its
end first, so that a name such as `..ts` is taken for the directory above and stays without
one. -/
def withExtension (path extension : String) : String :=
  let length := ((extension? path).getD "").length
  let path := String.ofList (path.toList.take (path.length - length))
  match upToStem? path with
  | some stem => stem ++ "." ++ extension
  | none      => path

/-- The path beside `path` that is written to first: its extension is followed by `.tmp`. -/
def temporary (path : String) : String :=
  match extension? path with
  | some e => withExtension path (e ++ ".tmp")
  | none   => withExtension path "tmp"

end SchemaEnums.Files.Path
