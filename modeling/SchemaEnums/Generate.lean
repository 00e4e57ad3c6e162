import SchemaEnums.Enums.Build
import SchemaEnums.Layout.Render
import SchemaEnums.Log

/-!
# Generate

From a schema file to the text of the generated file.  A schema that cannot be read or is not
sound ends a strict run; any other run reports it and goes on with a schema that says nothing.
-/

namespace SchemaEnums.Generate
open Schema Enums Layout Files Log

/-- Why there is no text. -/
inductive Failure where
  | schema (path : String) (error : Schema.Error)
  | clash (clash : Clash)
deriving Repr, DecidableEq

/-- The problem that lies under an error, if that only passes it on. -/
def cause? : Schema.Error → Option Files.Problem
  | .unreadable _ problem => some problem
  | _                     => none

/-- The wording of a failure: what could not be done, and what that is due to. -/
def Failure.message : Failure → String
  | schema path e =>
    "failed to load schema " ++ path ++ ": " ++ e.message ++
    match cause? e with
    | some problem => ": " ++ problem.message
    | none         => ""
  | clash c => c.message

/-- The schema in the file that a path leads to. -/
def readDocument (d : Disk) (directory : Location) (path : String) :
    Except Schema.Error Document :=
  match d.readText directory path with
  | .error e => .error (.unreadable path e)
  | .ok text => Document.read text

/-- The event of passing over a block. -/
def skipped? : Block → Option Event
  | .model b  => if b.kind = .model then none else some (.blockSkipped b.kind b.name.name)
  | .enum _   => none
  | .config b => some (.settingsSkipped b.kind b.name.name)

/-- The summary of a schema file, and what there is to report. -/
def load (d : Disk) (directory : Location) (path : String) (strict : Bool) :
    Except Failure Summary × List Event :=
  match readDocument d directory path with
  | .ok document =>
    let s := document.summary
    (.ok s, document.blocks.filterMap skipped? ++
      [.schemaParsed path s.models.length s.enums.length])
  | .error e =>
    (if strict then .error (.schema path e) else .ok .empty, [.schemaRejected path e])

/-- The text made from a summary, and what there is to report. -/
def ofSummary (s : Summary) (selected : List Category) (o : Options) :
    Except Failure String × List Event :=
  match EnumFile.build (Names.ofSummary s) selected with
  | .ok file => (.ok (render o file), [.enumsBuilt file.declarations.length])
  | .error e => (.error (.clash e), [])

/-- The text made from a schema file, and what there is to report. -/
def ofFile (d : Disk) (directory : Location) (path : String) (strict : Bool)
    (selected : List Category) (o : Options) : Except Failure String × List Event :=
  match load d directory path strict with
  | (.ok s, events)    =>
    let (text, more) := ofSummary s selected o
    (text, events ++ more)
  | (.error e, events) => (.error e, events)

end SchemaEnums.Generate
