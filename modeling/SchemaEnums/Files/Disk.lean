import SchemaEnums.Files.Problem
import SchemaEnums.Files.Path

/-!
# Files — Disk

A file system without links: which places hold a directory and which a file, and what.

Looking something up changes nothing.  What changes a disk is a `Change`, and the operations
`create`, `write` and `rename` say which change a path asks for, or why it is refused; so the
changes of a run can be listed one by one, and `Change.apply` says what each does.

The system may stop a change that a path may ask for: a disk is full, a directory is protected, a
device fails.  Which changes it stops is a parameter, `Stops`.  A file whose writing is stopped may
be left with a beginning of its content.
-/

namespace SchemaEnums.Files

/-- A place: the names on the way to it from the root. -/
abbrev Location := List String

/-- What a place holds. -/
inductive Entry where
  | directory
  | file (content : ByteArray)

/-- A file system: what is at each place but the root, which is a directory. -/
structure Disk where
  entries : List (Location × Entry)

namespace Disk

/-- A disk that holds nothing. -/
def empty : Disk := ⟨[]⟩

/-- What is at a place. -/
def get? (d : Disk) (l : Location) : Option Entry :=
  if l = [] then some .directory else (d.entries.find? (·.1 == l)).map (·.2)

/-- The disk without what is at a place. -/
def erase (d : Disk) (l : Location) : Disk :=
  ⟨d.entries.filter (·.1 != l)⟩

/-- The disk with something at a place. -/
def put (d : Disk) (l : Location) (e : Entry) : Disk :=
  ⟨(l, e) :: (d.erase l).entries⟩

/-! ### Following a path -/

/-- One step along a path. -/
def enter (d : Disk) (l : Location) (name : String) : Except Problem Location :=
  match d.get? l with
  | none           => .error .notFound
  | some (.file _) => .error .notDirectory
  | some .directory =>
    if Path.isTrivial name then .ok l
    else if name == ".." then .ok l.dropLast
    else if (d.get? (l ++ [name])).isSome then .ok (l ++ [name])
    else .error .notFound

/-- The place that names lead to. -/
def follow (d : Disk) (l : Location) : List String → Except Problem Location
  | []      => .ok l
  | n :: ns => do
    let l ← d.enter l n
    d.follow l ns

/-- Where a path begins, seen from a directory. -/
def origin (directory : Location) (path : String) : Location :=
  if Path.isAbsolute path then [] else directory

/-- The place that a path leads to, seen from a directory. -/
def locate (d : Disk) (directory : Location) (path : String) : Except Problem Location :=
  if path == "" then .error .notFound
  else d.follow (origin directory path) (Path.names path)

/-- The directory that holds the last of some names, and that name. -/
def locateLast (d : Disk) (l : Location) (names : List String) :
    Except Problem (Location × String) := do
  let l ← d.follow l names.dropLast
  match d.get? l with
  | some .directory => .ok (l, names.getLastD "")
  | some (.file _)  => .error .notDirectory
  | none            => .error .notFound

/-! ### Looking -/

/-- What a path leads to. -/
def entry (d : Disk) (directory : Location) (path : String) : Except Problem Entry := do
  let l ← d.locate directory path
  match d.get? l with
  | some e => .ok e
  | none   => .error .notFound

/-- The path leads to a file. -/
def isFile (d : Disk) (directory : Location) (path : String) : Bool :=
  match d.entry directory path with
  | .ok (.file _) => true
  | _             => false

/-- The path leads to a directory. -/
def isDirectory (d : Disk) (directory : Location) (path : String) : Bool :=
  match d.entry directory path with
  | .ok .directory => true
  | _              => false

/-- The text of the file that a path leads to. -/
def readText (d : Disk) (directory : Location) (path : String) : Except Problem String := do
  match ← d.entry directory path with
  | .directory    => .error .isDirectory
  | .file content =>
    match String.fromUTF8? content with
    | some text => .ok text
    | none      => .error .notText

end Disk

/-! ### Changing -/

/-- One change of a disk. -/
inductive Change where
  | makeDirectory (place : Location)
  | writeFile (place : Location) (content : ByteArray)
  /-- A file goes to another place and replaces a file there. -/
  | moveFile (source target : Location)

/-- The disk after a change. -/
def Change.apply (d : Disk) : Change → Disk
  | makeDirectory l          => d.put l .directory
  | writeFile l content      => d.put l (.file content)
  | moveFile source target   =>
    match d.get? source with
    | some e => (d.erase source).put target e
    | none   => d

namespace Disk

/-- The change that makes a directory under a path. -/
def create (d : Disk) (directory : Location) (path : String) : Except Problem Change := do
  let (l, name) ← d.locateLast (origin directory path) (Path.names path)
  if Path.isTrivial name || name == ".." then .error .exists
  else if (d.get? (l ++ [name])).isSome then .error .exists
  else .ok (.makeDirectory (l ++ [name]))

/-- The change that writes a file under a path. -/
def write (d : Disk) (directory : Location) (path : String) (content : ByteArray) :
    Except Problem Change := do
  let (l, name) ← d.locateLast (origin directory path) (Path.names path)
  if Path.isTrivial name || name == ".." then .error .isDirectory
  else
    match d.get? (l ++ [name]) with
    | some .directory => .error .isDirectory
    | _               => .ok (.writeFile (l ++ [name]) content)

/-- The change that gives a file another path.  A slash at the end of the new path asks for a
directory, which a file cannot become. -/
def rename (d : Disk) (directory : Location) (source target : String) : Except Problem Change := do
  let old ← d.locate directory source
  let names := Path.names target
  let core := (names.reverse.dropWhile (· == "")).reverse
  let (l, name) ← d.locateLast (origin directory target) core
  if Path.isTrivial name || name == ".." then .error .busy
  else if core.length < names.length then .error .notDirectory
  else
    match d.get? (l ++ [name]) with
    | some .directory => .error .isDirectory
    | _               => .ok (.moveFile old (l ++ [name]))

end Disk

/-! ### Being stopped -/

/-- Why and how far into it the system stops a change. -/
structure Stop where
  problem : Problem
  /-- The number of bytes in a file that was being written; none, if that had not begun. -/
  written : Option Nat

/-- What is made instead of a change that is stopped. -/
def Stop.left (s : Stop) : Change → Option Change
  | .writeFile l content => s.written.map fun n => .writeFile l (content.extract 0 n)
  | _                    => none

/-- What the system stops: the changes that have been made, and then the next one. -/
abbrev Stops := List Change → Change → Option Stop

/-- A system that stops nothing. -/
def Stops.none : Stops := fun _ _ => Option.none

/-- Work on a disk: how far it has come, by which changes, and what the system stops. -/
structure Progress where
  disk    : Disk
  changes : List Change
  stops   : Stops

namespace Progress

/-- A disk before any change. -/
def start (d : Disk) (stops : Stops := .none) : Progress := ⟨d, [], stops⟩

/-- One change more. -/
def make (p : Progress) (c : Change) : Progress :=
  { p with disk := c.apply p.disk, changes := p.changes ++ [c] }

/-- One change more, or the reason for having none, or not the whole of it. -/
def step (p : Progress) (change : Except Problem Change) : Progress × Option Problem :=
  match change with
  | .error e => (p, some e)
  | .ok c    =>
    match p.stops p.changes c with
    | none      => (p.make c, none)
    | some stop => (((stop.left c).map p.make).getD p, some stop.problem)

/-- A directory under a path, unless there is one already. -/
def ensureDirectory (directory : Location) (path : String) (p : Progress) :
    Progress × Option Problem :=
  match p.step (p.disk.create directory path) with
  | (p, some e) => (p, if p.disk.isDirectory directory path then none else some e)
  | done        => done

/-- A directory under a path with at most `n` of the directories around it, made from the outside
in where they are missing. -/
def ensureWithin (directory : Location) : (n : Nat) → (path : String) → Progress →
    Progress × Option Problem
  | 0,     _,    p => (p, some .notFound)
  | n + 1, path, p =>
    if path == "" then (p, none)
    else
      match p.ensureDirectory directory path with
      | (p, some .notFound) =>
        match Path.parent? path with
        | none        => (p, some .notFound)
        | some parent =>
          match ensureWithin directory n parent p with
          | (p, none)   => p.ensureDirectory directory path
          | (p, some e) => (p, some e)
      | done => done

/-- A directory under a path with all directories around it. -/
def ensure (directory : Location) (path : String) (p : Progress) : Progress × Option Problem :=
  ensureWithin directory ((Path.names path).length + 1) path p

end Progress

end SchemaEnums.Files
