import SchemaEnums.Enums.Build

/-!
# Command — Arguments

The command line: one schema, and options in any order.  Arguments are read from left to right
and the first that is wrong decides the answer.  The value of an option that has not been looked
at yet is `pending`; it is looked at when the next argument that is not wrong in itself comes, so
of two wrong arguments the second can win.
-/

namespace SchemaEnums.Command
open Enums

/-- What the arguments ask for. -/
structure Arguments where
  schema : String
  output : Option String
  print  : Bool
  strict : Bool
  check  : Bool
  emit   : List Category
deriving Repr, DecidableEq

/-- The categories to generate: all, unless some are named. -/
def Arguments.categories (a : Arguments) : List Category :=
  if a.emit.isEmpty then Category.all else a.emit

/-- What is wrong with an argument. -/
inductive Misuse where
  | missingArgument
  | unknownArgument
  | invalidValue
  | conflict
  | tooManyValues
deriving Repr, DecidableEq

/-- Why the arguments do not lead to a run. -/
inductive Refusal where
  | misuse (kind : Misuse)
  | help (long : Bool)
  | version
  /-- There is neither a file to write nor a request to print. -/
  | noTarget
deriving Repr, DecidableEq

/-- What takes a value. -/
inductive Slot where
  | schema
  | output
  | emit
deriving Repr, DecidableEq

/-- What takes none. -/
inductive Flag where
  | print
  | strict
  | check
  | help
  | version
deriving Repr, DecidableEq

/-- An option. -/
inductive Opt where
  | slot (slot : Slot)
  | flag (flag : Flag)
deriving Repr, DecidableEq

/-- The option of a name after two hyphens. -/
def Opt.ofName? : String → Option Opt
  | "output"  => some (.slot .output)
  | "emit"    => some (.slot .emit)
  | "print"   => some (.flag .print)
  | "strict"  => some (.flag .strict)
  | "check"   => some (.flag .check)
  | "help"    => some (.flag .help)
  | "version" => some (.flag .version)
  | _         => none

/-- The option of a letter after one hyphen. -/
def Opt.ofLetter? : Char → Option Opt
  | 'o' => some (.slot .output)
  | 'h' => some (.flag .help)
  | 'v' => some (.flag .version)
  | _   => none

/-- What has been read so far. -/
structure Reading where
  schema  : Option String
  output  : Option String
  print   : Bool
  strict  : Bool
  check   : Bool
  emit    : List Category
  /-- What was begun last, and its value if that has come. -/
  pending : Option (Slot × Option String)
  /-- The schema has been named, perhaps in vain. -/
  named   : Bool

namespace Reading

/-- Before the first argument. -/
def start : Reading := ⟨none, none, false, false, false, [], none, false⟩

/-- The text between commas. -/
def splitCommas : List Char → List (List Char)
  | []        => [[]]
  | c :: rest =>
    if c = ',' then [] :: splitCommas rest
    else
      match splitCommas rest with
      | []      => [[c]]
      | w :: ws => (c :: w) :: ws

/-- Takes a value for a slot. -/
def take (r : Reading) (slot : Slot) (value : String) : Except Refusal Reading :=
  match slot with
  | .schema =>
    if value == "" then .error (.misuse .invalidValue) else .ok { r with schema := some value }
  | .output =>
    if r.output.isSome then .error (.misuse .conflict)
    else if value == "" then .error (.misuse .invalidValue)
    else .ok { r with output := some value }
  | .emit   =>
    match (splitCommas value.toList).mapM fun w => Category.ofWord? (String.ofList w) with
    | some cs => .ok { r with emit := r.emit ++ cs }
    | none    => .error (.misuse .invalidValue)

/-- Looks at what is pending. -/
def settle (r : Reading) : Except Refusal Reading :=
  match r.pending with
  | none                => .ok r
  | some (_, none)      => .error (.misuse .invalidValue)
  | some (slot, some v) => { r with pending := none }.take slot v

/-- Raises a flag, which was not raised before. -/
def raise (r : Reading) (flag : Flag) : Except Refusal Reading := do
  let r ← r.settle
  let once (raised : Bool) (r : Reading) : Except Refusal Reading :=
    if raised then .error (.misuse .conflict) else .ok r
  match flag with
  | .print   => once r.print { r with print := true }
  | .strict  => once r.strict { r with strict := true }
  | .check   => once r.check { r with check := true }
  | .help    => .error (.help true)
  | .version => .error .version

/-- Takes a value that stands in the argument of its option, or waits for it. -/
def begin (r : Reading) (slot : Slot) (value : Option String) : Except Refusal Reading := do
  let r ← r.settle
  match value with
  | some v => r.take slot v
  | none   => .ok { r with pending := some (slot, none) }

/-- An argument that is neither an option nor the value of one. -/
def position (r : Reading) (value : String) : Except Refusal Reading :=
  if r.named then .error (.misuse .unknownArgument)
  else do
    let r ← r.settle
    .ok { r with pending := some (.schema, some value), named := true }

/-- An option by its name; a value may stand behind an equals sign. -/
def long (r : Reading) (text : List Char) : Except Refusal Reading :=
  let name := text.takeWhile (· != '=')
  let value :=
    if name.length == text.length then none
    else some (String.ofList (text.drop (name.length + 1)))
  match Opt.ofName? (String.ofList name), value with
  | none,              _      => .error (.misuse .unknownArgument)
  | some (.slot slot), value  => r.begin slot value
  | some (.flag flag), none   => r.raise flag
  | some (.flag _),    some _ => .error (.misuse .tooManyValues)

/-- Options by their letters; what follows the letter of one with a value is that value, with or
without an equals sign before it. -/
def short (r : Reading) : List Char → Except Refusal Reading
  | []        => .ok r
  | c :: rest =>
    match Opt.ofLetter? c with
    | none               => .error (.misuse .unknownArgument)
    | some (.flag .help) => do
      let _ ← r.settle
      .error (.help false)
    | some (.flag flag)  => do
      let r ← r.raise flag
      r.short rest
    | some (.slot slot)  =>
      r.begin slot (match rest with
        | []          => none
        | '=' :: rest => some (String.ofList rest)
        | rest        => some (String.ofList rest))

/-- The next argument; behind two hyphens that stand alone, `trailing`, no more options are
read. -/
def next (r : Reading) (trailing : Bool) (argument : String) : Except Refusal Reading :=
  match trailing, argument.toList with
  | false, '-' :: '-' :: text => r.long text
  | false, '-' :: c :: text   => r.short (c :: text)
  | false, _                  =>
    match r.pending with
    | some (slot, none) => .ok { r with pending := some (slot, some argument) }
    | _                 => r.position argument
  | true,  _                  => r.position argument

/-- The remaining arguments. -/
def all (r : Reading) (trailing : Bool) : List String → Except Refusal Reading
  | []      => .ok r
  | a :: as =>
    if !trailing && a == "--" then r.all true as
    else do
      let r ← r.next trailing a
      r.all trailing as

end Reading

/-- What a list of arguments asks for. -/
def Arguments.read (arguments : List String) : Except Refusal Arguments := do
  let r ← Reading.start.all false arguments
  let r ← r.settle
  match r.schema with
  | none        => .error (.misuse .missingArgument)
  | some schema =>
    if r.check && r.output.isNone then .error (.misuse .missingArgument)
    else if r.output.isNone && !r.print then .error .noTarget
    else .ok ⟨schema, r.output, r.print, r.strict, r.check, r.emit⟩

end SchemaEnums.Command
