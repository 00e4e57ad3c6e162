import SchemaEnums.Command.Arguments
import SchemaEnums.Command.Help
import SchemaEnums.Generate
import SchemaEnums.Output.Write

/-!
# Command — Run

One run of the program.  `run` is a function of a disk, a working directory and arguments, and of
what the system stops.  Everything that a run does is in its `Outcome`: how it ended, what it
printed and reported, and which changes it made, in their order.
-/

namespace SchemaEnums.Command
open Files Log

/-! ### Failures -/

/-- Why a run failed. -/
inductive Failure where
  | refused (refusal : Refusal)
  | generate (failure : Generate.Failure)
  | output (failure : Output.Failure)
deriving Repr, DecidableEq

/-- The wording of a refusal; misuse is left to its kind. -/
def Refusal.message : Refusal → String
  | misuse _   => ""
  | help true  => longHelp
  | help false => shortHelp
  | version    => versionText
  | noTarget   =>
    "Invalid argument. Missing --output (-o) argument, please specify it! " ++
    "OR you can specify --print argument just for printing result to the console!"

/-- The wording of a failure. -/
def Failure.message : Failure → String
  | refused r  => r.message
  | generate f => f.message
  | output f   => f.message

/-! ### Colors -/

/-- A color of the terminal. -/
inductive Color where
  | yellow
  | cyan
deriving Repr, DecidableEq

/-- The sequence that ends a color. -/
def resetCode : List Char := ['\x1b', '[', '0', 'm']

/-- The sequence that begins a color. -/
def Color.code : Color → List Char
  | yellow => ['\x1b', '[', '3', '3', 'm']
  | cyan   => ['\x1b', '[', '3', '6', 'm']

/-- The text with the color begun anew wherever it ends the color itself. -/
def recolored (code : List Char) : List Char → List Char
  | '\x1b' :: '[' :: '0' :: 'm' :: rest => resetCode ++ code ++ recolored code rest
  | c :: rest                           => c :: recolored code rest
  | []                                  => []

/-- The text in a color, if colors are shown. -/
def painted (colors : Bool) (color : Color) (text : String) : String :=
  if colors then
    String.ofList (color.code ++ recolored color.code text.toList ++ resetCode)
  else text

/-! ### Runs -/

/-- Where a run takes place. -/
structure Setting where
  directory : Location
  colors    : Bool

/-- The path of the working directory. -/
def Setting.path (s : Setting) : String :=
  "/" ++ Path.ofNames s.directory

/-- All that a run does. -/
structure Outcome where
  result   : Except Failure Unit
  progress : Progress
  printed  : String
  events   : List Event

/-- What is printed with the text when printing is asked for. -/
def printedText (s : Setting) (a : Arguments) (text : String) : String :=
  if a.print then
    painted s.colors .yellow text ++ "\n" ++
    painted s.colors .cyan "Print enumerates on the console successfully! ✅" ++ "\n"
  else ""

/-- What is printed when the output is in place. -/
def printedDone (s : Setting) (a : Arguments) (path : String) : String :=
  if a.check then path ++ " is up to date\n"
  else
    painted s.colors .cyan
      "Generate enumerates for file at specified destination successfully! ✅" ++ "\n"

/-- The events of putting the output in place. -/
def outputEvents (a : Arguments) (path text : String) : Output.Outcome → List Event
  | .written   => [.outputWritten path text.utf8ByteSize]
  | .unchanged => if a.check then [] else [.outputCurrent path]

/-- Puts the text where the arguments want it. -/
def deliver (s : Setting) (a : Arguments) (text : String) (d : Disk) (stops : Stops := .none) :
    Outcome :=
  match a.output with
  | none      => ⟨.ok (), .start d stops, printedText s a text, []⟩
  | some path =>
    let r := Output.put s.directory path text a.check d stops
    match r.result with
    | .error f => ⟨.error (.output f), r.progress, printedText s a text, []⟩
    | .ok done =>
      ⟨.ok (), r.progress, printedText s a text ++ printedDone s a path,
        outputEvents a path text done⟩

/-- A run with arguments that have been understood. -/
def perform (s : Setting) (a : Arguments) (d : Disk) (stops : Stops := .none) : Outcome :=
  let config := Config.resolve .standard d s.directory s.path
  let before := ofResolution config ++ [.optionsResolved config.source]
  match Generate.ofFile d s.directory a.schema a.strict a.categories config.options with
  | (.error f, events) => ⟨.error (.generate f), .start d stops, "", before ++ events⟩
  | (.ok text, events) =>
    let o := deliver s a text d stops
    { o with events := before ++ events ++ o.events }

/-- A run. -/
def run (s : Setting) (arguments : List String) (d : Disk) (stops : Stops := .none) : Outcome :=
  match Arguments.read arguments with
  | .error r => ⟨.error (.refused r), .start d stops, "", []⟩
  | .ok a    => perform s a d stops

end SchemaEnums.Command
