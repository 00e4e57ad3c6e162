import SchemaEnums.Text.Escape
import SchemaEnums.Data.Yaml.Token

/-!
# Data — Yaml — Scalar

The text of scalars: plain, in single or double quotes, and in blocks.  A line break inside a
plain or quoted scalar is folded: one break becomes a space, and of more breaks all but the first
are kept (`Gap.text`).

The `margin` of a reader is the least column at which the content of the current collection may
stand; at the top of a document it is zero.
-/

namespace SchemaEnums.Data.Yaml

/-- What a reader of a scalar yields. -/
abbrev Reader (α : Type) := Cursor → Option (α × Cursor)

/-! ### Folding -/

/-- Blanks and line breaks between two words: the blanks before the first break, and the
breaks. -/
structure Gap where
  blanks : List Char
  breaks : List Char

namespace Gap

def empty : Gap := ⟨[], []⟩

/-- The folded text of a gap. -/
def text (g : Gap) : List Char :=
  match g.breaks with
  | []      => g.blanks
  | ['\n']  => [' ']
  | b :: bs => if b == '\n' then bs else b :: bs

/-- Up to `n` blanks and line breaks; a tab may not indent a line by less than `margin`. -/
def readWithin (margin : Nat) : (n : Nat) → Gap → Reader Gap
  | 0,     g, c => some (g, c)
  | n + 1, g, c =>
    match c.rest.head?, c.lineBreak? with
    | _,         some (b, c) => readWithin margin n { g with breaks := g.breaks ++ [b] } c
    | none,      none        => some (g, c)
    | some x,    none        =>
      if !isBlank x then some (g, c)
      else if g.breaks.isEmpty then
        readWithin margin n { g with blanks := g.blanks ++ [x] } (c.advance 1)
      else if x == '\t' && c.column < margin then none
      else readWithin margin n g (c.advance 1)

/-- The gap that begins here. -/
def read (margin : Nat) : Reader Gap := fun c =>
  readWithin margin c.rest.length .empty c

end Gap

/-! ### Plain scalars -/

/-- An indicator of flow collections that ends a plain scalar inside them. -/
def isFlowIndicator (c : Char) : Bool :=
  c == ',' || c == '[' || c == ']' || c == '{' || c == '}'

/-- The length of the word at the front of a plain scalar.  Inside a flow collection a colon must
not stand right before an indicator. -/
def wordLength (inFlow : Bool) : List Char → Option Nat
  | []        => some 0
  | c :: rest =>
    if isBlank c || isBreak c then some 0
    else if c == ':' then
      if inFlow && rest.head?.any (fun x => isFlowIndicator x || x == '?') then none
      else if endsWord rest then some 0
      else (wordLength inFlow rest).map (· + 1)
    else if inFlow && isFlowIndicator c then some 0
    else (wordLength inFlow rest).map (· + 1)

/-- What a plain scalar says, and whether it ended with a line break. -/
structure Plain where
  text    : List Char
  atBreak : Bool

/-- Up to `n` more words of a plain scalar that begins with `p`, where `gap` precedes them. -/
def plainWithin (inFlow : Bool) (margin : Nat) : (n : Nat) → Plain → (gap : Gap) → Reader Plain
  | 0,     p, _,   c => some (p, c)
  | n + 1, p, gap, c =>
    if c.atDocumentMark || c.rest.head? == some '#' then some (p, c)
    else
      match wordLength inFlow c.rest with
      | none   => none
      | some 0 => some (p, c)
      | some k => do
        let text := p.text ++ gap.text ++ c.rest.take k
        let (gap, c) ← Gap.read margin (c.advance k)
        let p := ⟨text, !gap.breaks.isEmpty⟩
        if !inFlow && c.column < margin then some (p, c)
        else plainWithin inFlow margin n p gap c

/-- A plain scalar. -/
def plain (inFlow : Bool) (margin : Nat) : Reader Plain := fun c =>
  plainWithin inFlow margin c.rest.length ⟨[], false⟩ .empty c

/-! ### Quoted scalars -/

/-- The characters that single letters stand for after a backslash. -/
def letterEscape? : Char → Option Char
  | '0'  => some '\x00'
  | 'a'  => some '\x07'
  | 'b'  => some '\x08'
  | 't'  => some '\t'
  | '\t' => some '\t'
  | 'n'  => some '\n'
  | 'v'  => some '\x0b'
  | 'f'  => some '\x0c'
  | 'r'  => some '\r'
  | 'e'  => some '\x1b'
  | ' '  => some ' '
  | '"'  => some '"'
  | '/'  => some '/'
  | '\\' => some '\\'
  | 'N'  => some '\u0085'
  | '_'  => some '\u00a0'
  | 'L'  => some '\u2028'
  | 'P'  => some '\u2029'
  | _    => none

/-- The number of hexadecimal digits that follow a letter after a backslash. -/
def escapeDigits? : Char → Option Nat
  | 'x' => some 2
  | 'u' => some 4
  | 'U' => some 8
  | _   => none

/-- An escape, from its backslash on, that is no escaped line break. -/
def escape : Reader Char := fun c =>
  match c.rest with
  | _ :: x :: rest =>
    match escapeDigits? x with
    | some n =>
      if rest.length < n then none
      else do
        let code ← Text.natural? 16 (rest.take n)
        let x ← Text.scalar? code
        some (x, c.advance (n + 2))
    | none => (letterEscape? x).map (·, c.advance 2)
  | _ => none

/-- A part of a quoted scalar without blanks. -/
inductive Piece where
  | char (c : Char)
  | escapedBreak
  | closing

/-- The next part of a quoted scalar. -/
def piece (quote : Char) : Reader Piece := fun c =>
  match c.rest with
  | []        => none
  | x :: rest =>
    if quote == '\'' && x == '\'' && rest.head? == some '\'' then
      some (.char '\'', c.advance 2)
    else if x == quote then some (.closing, c.advance 1)
    else if quote == '"' && x == '\\' then
      match (c.advance 1).lineBreak? with
      | some (_, c) => some (.escapedBreak, c)
      | none        => (escape c).map fun (x, c) => (.char x, c)
    else some (.char x, c.advance 1)

/-- Up to `n` more parts of a quoted scalar that begins with `text`. -/
def quotedWithin (quote : Char) : (n : Nat) → (text : List Char) → Reader (List Char)
  | 0,     _,    _ => none
  | n + 1, text, c =>
    if c.atDocumentMark then none
    else if !endsWord c.rest then do
      match ← piece quote c with
      | (.closing, c)      => some (text, c)
      | (.char x, c)       => quotedWithin quote n (text ++ [x]) c
      | (.escapedBreak, c) => do
        let (gap, c) ← Gap.readWithin 0 c.rest.length ⟨[], ['\u2028']⟩ c
        quotedWithin quote n (text ++ gap.breaks.drop 1) c
    else if c.rest.isEmpty then none
    else do
      let (gap, c) ← Gap.read 0 c
      quotedWithin quote n (text ++ gap.text) c

/-- A quoted scalar, from its opening quote on. -/
def quoted (quote : Char) : Reader (List Char) := fun c =>
  quotedWithin quote c.rest.length [] (c.advance 1)

/-! ### Block scalars -/

/-- What becomes of the line breaks at the end of a block scalar. -/
inductive Chomping where
  | strip
  | clip
  | keep
deriving DecidableEq

/-- The sign that says what becomes of them. -/
def chomping? (c : Cursor) : Option (Chomping × Cursor) :=
  ((c.eat? '+').map (.keep, ·)).or ((c.eat? '-').map (.strip, ·))

/-- The digit that says how far a block scalar is indented; zero is not allowed. -/
def indentation : Reader (Option Nat) := fun c =>
  match c.rest.head? with
  | some x =>
    if x == '0' then none
    else if x.isDigit then some (some (x.toNat - '0'.toNat), c.advance 1)
    else some (none, c)
  | none   => some (none, c)

/-- The sign and the digit of a block scalar, in either order. -/
def header : Reader (Chomping × Option Nat) := fun c =>
  match chomping? c with
  | some (chomping, c) => (indentation c).map fun (n, c) => ((chomping, n), c)
  | none => do
    match ← indentation c with
    | (none, c)   => some ((.clip, none), c)
    | (some n, c) =>
      let (chomping, c) := (chomping? c).getD (.clip, c)
      some ((chomping, some n), c)

/-- Empty lines before a line of a block scalar: their breaks, and the widest indentation seen. -/
structure Breaks where
  breaks : List Char
  widest : Nat

/-- Up to `n` empty lines; without an `indent` every space counts as indentation. -/
def breaksWithin (indent : Option Nat) : (n : Nat) → Breaks → Reader Breaks
  | 0,     b, c => some (b, c)
  | n + 1, b, c =>
    let spaces := (c.rest.takeWhile (· == ' ')).length
    let c := c.advance (match indent with
      | some i => min spaces (i - c.column)
      | none   => spaces)
    let b := { b with widest := max b.widest c.column }
    if indent.all (c.column < ·) && c.rest.head? == some '\t' then none
    else
      match c.lineBreak? with
      | some (x, c) => breaksWithin indent n { b with breaks := b.breaks ++ [x] } c
      | none        => some (b, c)

/-- The lines of a block scalar so far. -/
structure Block where
  text     : List Char
  /-- The break after the last line. -/
  last     : List Char
  /-- The breaks of the empty lines after it. -/
  breaks   : List Char
  /-- The last line begins with a blank. -/
  indented : Bool

/-- The block with its pending breaks, folded before a line that begins with a blank or not. -/
def Block.joined (b : Block) (isLiteral indented : Bool) : List Char :=
  if !isLiteral && b.last == ['\n'] && !b.indented && !indented then
    b.text ++ (if b.breaks.isEmpty then [' '] else b.breaks)
  else b.text ++ b.last ++ b.breaks

/-- Up to `n` more lines of a block scalar. -/
def linesWithin (isLiteral : Bool) (indent : Nat) : (n : Nat) → Block → Reader Block
  | 0,     b, c => some (b, c)
  | n + 1, b, c =>
    if c.column != indent || c.rest.isEmpty then some (b, c)
    else do
      let indented := c.rest.head?.any isBlank
      let (line, c) := c.run (!isBreak ·)
      let text := b.joined isLiteral indented ++ line
      let (last, c) := match c.lineBreak? with
        | some (x, c) => ([x], c)
        | none        => ([], c)
      let (breaks, c) ← breaksWithin (some indent) c.rest.length ⟨[], 0⟩ c
      linesWithin isLiteral indent n ⟨text, last, breaks.breaks, indented⟩ c

/-- A block scalar, from its indicator on. -/
def block (isLiteral : Bool) (margin : Nat) : Reader (List Char) := fun c => do
  let ((chomping, digit), c) ← header (c.advance 1)
  let c ← c.lineTail?
  let c := c.pastBreak
  let given := digit.map (· + (margin - 1))
  let (breaks, c) ← breaksWithin given (c.rest.length + 1) ⟨[], 0⟩ c
  let indent := given.getD (max (max breaks.widest margin) 1)
  let (b, c) ← linesWithin isLiteral indent (c.rest.length + 1) ⟨[], [], breaks.breaks, false⟩ c
  let text := match chomping with
    | .strip => b.text
    | .clip  => b.text ++ b.last
    | .keep  => b.text ++ b.last ++ b.breaks
  some (text, c)

end SchemaEnums.Data.Yaml
