import SchemaEnums.Config.Decode
import SchemaEnums.Files.Disk
import SchemaEnums.Text.Blank

/-!
# Config — Resolve

Finding the configuration that governs a directory.  The candidates are the files of certain names
in the directory and in those around it, nearer directories first; the first that yields options
wins, and without one the fallback holds.  A file that cannot be used is reported and passed over;
a package file that says nothing about the layout is passed over silently.

What the notations make of a text is a parameter, `Formats`; it comes from what their readers make
of the text (`Readers.formats`).
-/

namespace SchemaEnums.Config
open Layout Files

/-- The notations of configuration files. -/
inductive Dialect where
  | json
  | yaml
  | toml
deriving Repr, DecidableEq

/-- The usual name of a notation. -/
def Dialect.name : Dialect → String
  | json => "JSON"
  | yaml => "YAML"
  | toml => "TOML"

/-- Why a configuration file is not used. -/
inductive Problem where
  | unreadable (path : String) (problem : Files.Problem)
  | malformed (dialect : Dialect)
  | invalidOptions
  | shared (name : String)
  | unsupported (name : String)
deriving Repr, DecidableEq

/-- The wording of a problem. -/
def Problem.message : Problem → String
  | unreadable path problem => "failed to read " ++ path ++ ": " ++ problem.message
  | malformed dialect       => "invalid " ++ dialect.name
  | invalidOptions          => "invalid options"
  | shared name             => "shared config `" ++ name ++ "` is not supported"
  | unsupported name        => "unsupported config format `" ++ name ++ "`"

/-- How the text of a file is read in each notation; a package file may say nothing. -/
structure Formats where
  package : String → Except Problem (Option Options)
  json    : String → Option Options
  yaml    : String → Option Options
  toml    : String → Option Options

/-- What the readers of the notations make of a text: a value, or a failure.  A package file is read
as data. -/
structure Readers where
  package : String → Option Data.Json
  json    : String → Option Data.Json
  yaml    : String → Option (Option Data.Yaml.Node)
  toml    : String → Option Data.Toml.Table

/-- How files are read with these readers.  A YAML file that holds white space only sets nothing. -/
def Readers.formats (r : Readers) : Formats where
  package := fun text =>
    match r.package text with
    | none   => .error (.malformed .json)
    | some j =>
      match j.get? "prettier" with
      | none                    => .ok none
      | some (.string (some s)) => .error (.shared s)
      | some v                  =>
        match ofJsonData? v with
        | some o => .ok (some o)
        | none   => .error .invalidOptions
  json    := fun text => (r.json text).bind ofJson?
  yaml    := fun text =>
    if Text.allBlank text then some .default else (r.yaml text).bind ofYaml?
  toml    := fun text => (r.toml text).bind ofToml?

/-- The readers of the notations themselves. -/
def Readers.standard : Readers where
  package := fun text => (Data.Json.read text).filter (·.isSound)
  json    := Data.Json.read
  yaml    := Data.Yaml.Node.read
  toml    := Data.Toml.Table.read

/-- The notations themselves. -/
def Formats.standard : Formats :=
  Readers.standard.formats

/-- The names of configuration files, in the order in which they are looked for. -/
def fileNames : List String :=
  ["package.json", ".prettierrc", ".prettierrc.json", ".prettierrc.yaml", ".prettierrc.yml",
   ".prettierrc.json5", ".prettierrc.js", ".prettierrc.cjs", ".prettierrc.mjs",
   "prettier.config.js", "prettier.config.cjs", "prettier.config.mjs", ".prettierrc.toml"]

/-- What a file of options says, if its text can be read. -/
def required (dialect : Dialect) : Option Options → Except Problem (Option Options)
  | some o => .ok (some o)
  | none   => .error (.malformed dialect)

/-- What a file of one of these names says. -/
def Formats.read (f : Formats) (name text : String) : Except Problem (Option Options) :=
  match name with
  | "package.json"     => f.package text
  | ".prettierrc.json" => required .json (f.json text)
  | ".prettierrc"      => required .yaml (f.yaml text)
  | ".prettierrc.yaml" => required .yaml (f.yaml text)
  | ".prettierrc.yml"  => required .yaml (f.yaml text)
  | ".prettierrc.toml" => required .toml (f.toml text)
  | name               => .error (.unsupported name)

/-- A file that may hold the configuration. -/
structure Candidate where
  path : String
  name : String
deriving Repr, DecidableEq

/-- The candidates for a directory, the likeliest first. -/
def candidates (start : String) : List Candidate :=
  (Path.ancestors start).flatMap fun directory =>
    fileNames.map fun name => ⟨Path.join directory name, name⟩

/-- What a candidate says; nothing, if it is no file. -/
def load (f : Formats) (d : Disk) (directory : Location) (c : Candidate) :
    Except Problem (Option Options) :=
  if d.isFile directory c.path then
    match d.readText directory c.path with
    | .error e => .error (.unreadable c.path e)
    | .ok text => f.read c.name text
  else .ok none

/-- The options for a directory, the file they are from, and the files that could not be used. -/
structure Resolution where
  options : Options
  source  : Option String
  ignored : List (String × Problem)
deriving Repr, DecidableEq

/-- The first candidate of a list that yields options. -/
def choose (f : Formats) (d : Disk) (directory : Location) : List Candidate → Resolution
  | []      => ⟨.fallback, none, []⟩
  | c :: cs =>
    match load f d directory c with
    | .ok (some o) => ⟨o, some c.path, []⟩
    | .ok none     => choose f d directory cs
    | .error e     =>
      let r := choose f d directory cs
      { r with ignored := (c.path, e) :: r.ignored }

/-- The configuration that governs a directory. -/
def resolve (f : Formats) (d : Disk) (directory : Location) (start : String) : Resolution :=
  choose f d directory (candidates start)

end SchemaEnums.Config
