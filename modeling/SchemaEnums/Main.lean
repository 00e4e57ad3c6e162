import SchemaEnums.Command.Run

/-!
# Main

The program.  All that a run may look at is read from the file system first, `Command.run` says
what the run does, and that is carried out: the changes, the printed text, and the report.  Where
the system stops a change, `Command.run` says how a run ends that is stopped there.
-/

namespace SchemaEnums.Main
open Files Command

/-! ### Places -/

/-- The path of a place. -/
def pathOf (l : Location) : String :=
  "/" ++ Path.ofNames l

/-- The places on the way along some names. -/
def through (l : Location) : List String → List Location
  | []      => [l]
  | n :: ns =>
    l :: through (if Path.isTrivial n then l else if n == ".." then l.dropLast else l ++ [n]) ns

/-- The places on the way along a path. -/
def placesOf (directory : Location) (path : String) : List Location :=
  through (Disk.origin directory path) (Path.names path)

/-- The places that a run in a directory may look at. -/
def places (s : Setting) (arguments : List String) : List Location :=
  let configs := (Config.candidates s.path).map (·.path)
  let named := match Arguments.read arguments with
    | .error _ => []
    | .ok a    => a.schema :: a.output.toList ++ a.output.toList.map Path.temporary
  (configs ++ named).flatMap (placesOf s.directory)

/-! ### Reading -/

/-- What is at a place whose directory is there. -/
def look (l : Location) : IO (Option Entry) := do
  try
    let content ← IO.FS.readBinFile (pathOf l)
    return some (.file content)
  catch e =>
    match e with
    | .inappropriateType .. => return some .directory
    | _                     => return none

/-- The part of the file system that lies at some places, each after the directory around it. -/
def snapshot (places : List Location) : IO Disk :=
  places.foldlM (fun d l => do
    match d.get? l, d.get? l.dropLast with
    | none, some .directory =>
      match ← look l with
      | some e => return d.put l e
      | none   => return d
    | _,    _               => return d) Disk.empty

/-! ### Writing -/

/-- Makes a change. -/
def carryOut : Change → IO Unit
  | .makeDirectory l        => IO.FS.createDir (pathOf l)
  | .writeFile l content    => IO.FS.withFile (pathOf l) .write fun h => do
    h.write content
    -- closing the file would not say whether all of it was written
    h.flush
  | .moveFile source target => IO.FS.rename (pathOf source) (pathOf target)

/-- What an error says about a change. -/
def problemOf : IO.Error → Problem
  | .alreadyExists _ n reason | .interrupted _ n reason | .noFileOrDirectory _ n reason
  | .invalidArgument _ n reason | .permissionDenied _ n reason | .resourceExhausted _ n reason
  | .inappropriateType _ n reason | .noSuchThing _ n reason | .otherError n reason
  | .resourceBusy n reason | .resourceVanished n reason | .unsupportedOperation n reason
  | .hardwareFault n reason | .unsatisfiedConstraints n reason | .illegalOperation n reason
  | .protocolError n reason | .timeExpired n reason => .system reason n.toNat
  | e => .system (toString e) 0

/-- Makes changes one after the other, behind `n` that have been made, until the system stops one.
What is left of that is not looked at. -/
def carryOutAll (n : Nat) : List Change → IO Stops
  | []      => return .none
  | c :: cs => do
    try
      carryOut c
    catch e =>
      return fun made _ => if made.length = n then some ⟨problemOf e, none⟩ else none
    carryOutAll (n + 1) cs

/-- A detail as it is reported. -/
def detailText : Log.Detail → String
  | .text value  => value
  | .count value => toString value

/-- An event as it is reported. -/
def eventText (e : Log.Event) : String :=
  e.level.name ++ " " ++ e.message ++
  String.join (e.details.map fun (name, d) => " " ++ name ++ "=" ++ detailText d)

/-- Says why a run failed, and yields its exit code. -/
def report : Failure → IO UInt32
  | .refused (.misuse _)  => do
    IO.eprintln "error: invalid arguments\n\nFor more information, try --help"
    return 1
  | .refused .noTarget    => do
    IO.eprintln ("Error: " ++ Refusal.noTarget.message)
    return 1
  | .refused r            => do
    IO.print r.message
    return 0
  | f                     => do
    IO.eprintln ("Error: " ++ f.message)
    return 1

end SchemaEnums.Main

open SchemaEnums SchemaEnums.Main

/-- Runs the program in the working directory. -/
def main (arguments : List String) : IO UInt32 := do
  let directory ← IO.currentDir
  let colors ← (← IO.getStdout).isTty
  let s : Command.Setting := ⟨(Files.Path.names directory.toString).drop 1, colors⟩
  let d ← snapshot (places s arguments)
  let stops ← carryOutAll 0 (Command.run s arguments d).progress.changes
  let o := Command.run s arguments d stops
  for e in o.events do
    if e.isShown 2 then IO.eprintln (eventText e)
  IO.print o.printed
  match o.result with
  | .ok ()   => return 0
  | .error f => report f
