import SchemaEnums.Files.Disk

/-!
# Output — Write

Putting the generated text where it belongs.  A file that reads as the text already is left alone.
Otherwise the directories around it are made, the text goes to a temporary file beside it, and
that file takes its place; so a reader finds the old text or the new one, whole.  A step that fails
ends this, and what was made before it stays.  When checking, nothing is written, and a file that
does not read as the text is an error.
-/

namespace SchemaEnums.Output
open Files

/-- Why the text could not be put in place. -/
inductive Failure where
  | stale (path : String)
  | directory (path : String) (problem : Problem)
  | write (path : String) (problem : Problem)
  | rename (source target : String) (problem : Problem)
deriving Repr, DecidableEq

/-- The wording of a failure. -/
def Failure.message : Failure → String
  | stale path             => "generated file is out of date: " ++ path
  | directory path problem => "failed to create directory " ++ path ++ ": " ++ problem.message
  | write path problem     => "failed to write " ++ path ++ ": " ++ problem.message
  | rename source target problem =>
    "failed to rename " ++ source ++ " -> " ++ target ++ ": " ++ problem.message

/-- How the text came to be in place. -/
inductive Outcome where
  | written
  | unchanged
deriving Repr, DecidableEq

/-- The changes that putting a text in place has made, and how it ended. -/
structure Report where
  progress : Progress
  result   : Except Failure Outcome

/-- The path reads as the text. -/
def isCurrent (d : Disk) (directory : Location) (path text : String) : Bool :=
  match d.readText directory path with
  | .ok existing => existing == text
  | .error _     => false

/-- The directories around a path. -/
def makeParents (directory : Location) (path : String) (p : Progress) :
    Progress × Option Failure :=
  match Path.parent? path with
  | none        => (p, none)
  | some parent =>
    let (p, e) := p.ensure directory parent
    (p, e.map (.directory parent))

/-- The text under a path by way of its temporary path. -/
def replace (directory : Location) (path text : String) (p : Progress) :
    Progress × Option Failure :=
  let temporary := Path.temporary path
  match makeParents directory path p with
  | (p, some e) => (p, some e)
  | (p, none)   =>
    match p.step (p.disk.write directory temporary text.toUTF8) with
    | (p, some e) => (p, some (.write temporary e))
    | (p, none)   =>
      match p.step (p.disk.rename directory temporary path) with
      | (p, some e) => (p, some (.rename temporary path e))
      | (p, none)   => (p, none)

/-- The text under a path, or only a look whether it is there. -/
def put (directory : Location) (path text : String) (check : Bool) (d : Disk)
    (stops : Stops := .none) : Report :=
  let p := Progress.start d stops
  if isCurrent d directory path text then ⟨p, .ok .unchanged⟩
  else if check then ⟨p, .error (.stale path)⟩
  else
    match replace directory path text p with
    | (p, none)   => ⟨p, .ok .written⟩
    | (p, some e) => ⟨p, .error e⟩

end SchemaEnums.Output
