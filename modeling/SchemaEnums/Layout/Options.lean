/-!
# Layout — Options

How the generated file is laid out.  `Options.default` is what a configuration file starts from,
and `Options.fallback` what holds without one: they differ in the preferred quote alone.
-/

namespace SchemaEnums.Layout

/-- Whether a comma follows the last member or name. -/
inductive TrailingComma where
  | all
  | es5
  | none
deriving Repr, DecidableEq

/-- How lines end. -/
inductive EndOfLine where
  | lf
  | crlf
  | cr
  | auto
deriving Repr, DecidableEq

/-- The word for a choice of commas. -/
def TrailingComma.word : TrailingComma → String
  | all   => "all"
  | es5   => "es5"
  | .none => "none"

/-- The choice of commas that a word names. -/
def TrailingComma.ofWord? (word : String) : Option TrailingComma :=
  [all, es5, .none].find? (·.word == word)

/-- The comma after the last item. -/
def TrailingComma.text : TrailingComma → String
  | all   => ","
  | es5   => ","
  | .none => ""

/-- The word for a line ending. -/
def EndOfLine.word : EndOfLine → String
  | lf   => "lf"
  | crlf => "crlf"
  | cr   => "cr"
  | auto => "auto"

/-- The line ending that a word names. -/
def EndOfLine.ofWord? (word : String) : Option EndOfLine :=
  [lf, crlf, cr, auto].find? (·.word == word)

/-- The characters that end a line. -/
def EndOfLine.text : EndOfLine → String
  | lf   => "\n"
  | crlf => "\r\n"
  | cr   => "\r"
  | auto => "\n"

/-- The options that the layout depends on. -/
structure Options where
  singleQuote    : Bool
  tabWidth       : Nat
  useTabs        : Bool
  semi           : Bool
  trailingComma  : TrailingComma
  bracketSpacing : Bool
  printWidth     : Nat
  endOfLine      : EndOfLine
deriving Repr, DecidableEq

namespace Options

/-- What a configuration file need not say. -/
def default : Options where
  singleQuote    := false
  tabWidth       := 2
  useTabs        := false
  semi           := true
  trailingComma  := .all
  bracketSpacing := true
  printWidth     := 80
  endOfLine      := .lf

/-- What holds without a configuration file. -/
def fallback : Options :=
  { default with singleQuote := true }

/-- The indentation of a member. -/
def indent (o : Options) : String :=
  if o.useTabs then "\t" else String.ofList (List.replicate o.tabWidth ' ')

/-- The mark that ends a statement. -/
def semicolon (o : Options) : String :=
  if o.semi then ";" else ""

/-- What stands inside the braces of a list on one line. -/
def padding (o : Options) : String :=
  if o.bracketSpacing then " " else ""

end Options

end SchemaEnums.Layout
