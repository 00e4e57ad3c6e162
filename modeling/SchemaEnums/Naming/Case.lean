import SchemaEnums.Text.Blank

/-!
# Naming — Case

Names as the generated enums write them.

* `camelize` lowers the first letter and takes out white space; a word character that follows
  none is raised, and a zero in such a place is dropped.
* `pascalize` joins the words of a name: hyphens, underscores and white space separate words,
  each word but the first is written with a capital and small letters, and the first keeps its
  letters and gets a capital.  Nothing outside ASCII survives but white space at the very end.
* `memberName` is what an enum's value is called: its lower case, pascalized.
-/

namespace SchemaEnums.Naming
open Text

/-- A letter or digit of ASCII, or the underscore. -/
def isWordChar (c : Char) : Bool :=
  c.isAlphanum || c == '_'

/-! ### Camel case -/

/-- The rest of a camelized name; `atStart` tells the first character, and `inWord` a place right
after a word character. -/
def camelFrom (atStart inWord : Bool) : List Char → List Char
  | []        => []
  | c :: rest =>
    let rest := camelFrom false (isWordChar c) rest
    if isBlank c then rest
    else if isWordChar c && (!inWord || c.isUpper) then
      if c == '0' then rest
      else (if atStart then c.toLower else c.toUpper) :: rest
    else c :: rest

/-- `ServiceAccount` becomes `serviceAccount`, and `service account` too. -/
def camelize (s : String) : String :=
  String.ofList (camelFrom true false s.toList)

/-! ### Pascal case -/

/-- A hyphen or an underscore. -/
def isDash (c : Char) : Bool :=
  c == '-' || c == '_'

/-- One space for every run of dashes; `inRun` tells a place right after a dash. -/
def spaced (inRun : Bool) : List Char → List Char
  | []        => []
  | c :: rest =>
    if isDash c then
      if inRun then spaced true rest else ' ' :: spaced true rest
    else c :: spaced false rest

/-- The word characters and the white space of a text. -/
def cleaned (s : List Char) : List Char :=
  s.filter fun c => isWordChar c || isBlank c

/-- What is left of white space at the end of a name: the last of it that is no line feed and not
its first character, and the line feeds after that; all of it, if there is no such character. -/
def trailing : List Char → List Char
  | []        => []
  | a :: more =>
    match more.reverse.dropWhile (· == '\n') with
    | []     => a :: more
    | b :: _ => b :: more.reverse.takeWhile (· == '\n')

/-- Where in a name the next character stands. -/
inductive Place where
  /-- In the first word. -/
  | first
  /-- After white space. -/
  | between (run : List Char)
  /-- Inside a later word. -/
  | later

/-- The words of a name joined, each after white space with a capital and small letters. -/
def joined : Place → List Char → List Char
  | .between run, []        => trailing run
  | _,            []        => []
  | .first,       c :: rest =>
    if isBlank c then joined (.between [c]) rest else c :: joined .first rest
  | .between run, c :: rest =>
    if isBlank c then joined (.between (run ++ [c])) rest else c.toUpper :: joined .later rest
  | .later,       c :: rest =>
    if isBlank c then joined (.between [c]) rest else c.toLower :: joined .later rest

/-- The text with a capital for its first word character. -/
def capitalized : List Char → List Char
  | []        => []
  | c :: rest => if isWordChar c then c.toUpper :: rest else c :: capitalized rest

/-- `service_account`, `service-account` and `service account` become `ServiceAccount`. -/
def pascalize (s : String) : String :=
  String.ofList (capitalized (joined .first (cleaned (spaced false s.toList))))

/-! ### Values of enums -/

/-- The lower case of a character, as far as letters of ASCII come out of it: the capitals, the
Kelvin sign, and the dotted capital i.  No other character has such a letter in its lower case,
and `pascalize` keeps no others. -/
def lower : Char → List Char
  | '\u212a' => ['k']
  | '\u0130' => ['i', '\u0307']
  | c        => [c.toLower]

/-- The name of the member that stands for a value of an enum. -/
def memberName (value : String) : String :=
  pascalize (String.ofList (value.toList.flatMap lower))

end SchemaEnums.Naming
