/-!
# Data — Yaml — Token

The characters that YAML tells apart, a cursor that counts them, and the tokens they form.

A line break is a line feed, a carriage return, both in this order, or one of Unicode's next line,
line separator and paragraph separator; the last two stay what they are where a break is kept,
and every other break becomes a line feed.
-/

namespace SchemaEnums.Data.Yaml

/-! ### Characters -/

/-- A space or a tab. -/
def isBlank (c : Char) : Bool :=
  c == ' ' || c == '\t'

/-- A character that ends a line. -/
def isBreak (c : Char) : Bool :=
  c == '\n' || c == '\r' || c == '\u0085' || c == '\u2028' || c == '\u2029'

/-- A blank, a line break or the end of the text stands here. -/
def endsWord : List Char → Bool
  | []     => true
  | c :: _ => isBlank c || isBreak c

/-- A line break or the end of the text stands here. -/
def endsLine : List Char → Bool
  | []     => true
  | c :: _ => isBreak c

/-- A character of an anchor, a tag's handle or a directive's name. -/
def isNameChar (c : Char) : Bool :=
  c.isAlphanum || c == '_' || c == '-'

/-- A character that a document may hold: no control character but tab and line breaks, and no
noncharacter at the end of the first plane. -/
def isAllowed (c : Char) : Bool :=
  c == '\t' || c == '\n' || c == '\r' || (' ' ≤ c && c ≤ '~') || c == '\u0085' ||
  ('\u00a0' ≤ c && c ≤ '\ufffd') || 0x10000 ≤ c.toNat

/-! ### Cursors -/

/-- How much of the text stands before a place: all characters, the line breaks, and the
characters since the last of these. -/
structure Place where
  index  : Nat
  line   : Nat
  column : Nat
deriving Repr, DecidableEq

/-- A place and the text from there on. -/
structure Cursor where
  place : Place
  rest  : List Char
deriving Repr

namespace Cursor

/-- The beginning of a text. -/
def ofText (text : List Char) : Cursor := ⟨⟨0, 0, 0⟩, text⟩

def column (c : Cursor) : Nat := c.place.column

/-- The place `n` characters on, none of which is a line break. -/
def advance (c : Cursor) (n : Nat) : Cursor :=
  ⟨{ c.place with index := c.place.index + n, column := c.place.column + n }, c.rest.drop n⟩

/-- The place after the longest run of `p`. -/
def skipWhile (c : Cursor) (p : Char → Bool) : Cursor :=
  c.advance (c.rest.takeWhile p).length

/-- The longest run of `p` and the place after it. -/
def run (c : Cursor) (p : Char → Bool) : List Char × Cursor :=
  (c.rest.takeWhile p, c.skipWhile p)

/-- The place after the next character, if that is `x`. -/
def eat? (c : Cursor) (x : Char) : Option Cursor :=
  if c.rest.head? == some x then some (c.advance 1) else none

/-- The first place of the next line, `n` characters on. -/
def nextLine (c : Cursor) (n : Nat) : Cursor :=
  ⟨⟨c.place.index + n, c.place.line + 1, 0⟩, c.rest.drop n⟩

/-- A line break, as the character that it is kept as, and the place after it. -/
def lineBreak? (c : Cursor) : Option (Char × Cursor) :=
  match c.rest with
  | '\r' :: '\n' :: _ => some ('\n', c.nextLine 2)
  | x :: _            =>
    if x == '\u2028' || x == '\u2029' then some (x, c.nextLine 1)
    else if isBreak x then some ('\n', c.nextLine 1)
    else none
  | []                => none

/-- The rest of the line is blanks and a comment; the place of its end. -/
def lineTail? (c : Cursor) : Option Cursor :=
  let c := c.skipWhile isBlank
  let c := if c.rest.head? == some '#' then c.skipWhile (!isBreak ·) else c
  if endsLine c.rest then some c else none

/-- The place after the line break that stands here, if one does. -/
def pastBreak (c : Cursor) : Cursor :=
  match c.lineBreak? with
  | some (_, c) => c
  | none        => c

/-- Three dashes or three dots at the beginning of a line, as a word of their own. -/
def atDocumentMark (c : Cursor) : Bool :=
  c.column == 0 &&
  match c.rest with
  | '-' :: '-' :: '-' :: rest => endsWord rest
  | '.' :: '.' :: '.' :: rest => endsWord rest
  | _                         => false

end Cursor

/-! ### Tokens -/

/-- How a scalar is written. -/
inductive Style where
  | plain
  | quoted
  | literal
  | folded
deriving Repr, DecidableEq

/-- A token. -/
inductive Token where
  | version (major minor : Nat)
  | tagDirective (handle : String) (expansion : String)
  | documentStart
  | documentEnd
  | blockSequenceStart
  | blockMappingStart
  | blockEnd
  | flowSequenceStart
  | flowSequenceEnd
  | flowMappingStart
  | flowMappingEnd
  | blockEntry
  | flowEntry
  | key
  | value
  | alias (name : String)
  | anchor (name : String)
  | tag (handle : String) (suffix : String)
  | scalar (style : Style) (text : String)
deriving Repr, DecidableEq

end SchemaEnums.Data.Yaml
