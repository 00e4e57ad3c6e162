import SchemaEnums.Data.Yaml.Scalar

/-!
# Data — Yaml — Tokens

Cutting a text into tokens.  Indentation is turned into tokens that open and close block
collections, so that the grammar of tokens is free of layout.

That a scalar, an alias or a flow collection is the key of a mapping shows only at the colon
behind it.  So the reading keeps in mind where one that may be a key begins, a `Candidate`, one for
each flow collection that is open, and inserts the tokens of the key there when the colon comes.
A candidate is given up at the end of its line and after 1024 characters; one that stands where
only a key can stand is required, and giving it up is an error.
-/

namespace SchemaEnums.Data.Yaml

/-- Something that is a key if a colon follows. -/
structure Candidate where
  /-- The number of tokens before it. -/
  index    : Nat
  place    : Place
  required : Bool

/-- The tokens up to a place between two of them, and what bears on the next one. -/
structure Tokens where
  cursor     : Cursor
  sofar      : Array Token
  /-- One more than the column of the innermost block collection; zero outside all. -/
  margin     : Nat
  /-- The margins of the block collections around it. -/
  outer      : List Nat
  candidate  : Option Candidate
  /-- The candidates outside each open flow collection. -/
  suspended  : List (Option Candidate)
  keyAllowed : Bool

namespace Tokens

/-- The state before the first token of a text.  A byte order mark at its front takes a column and
says nothing. -/
def start (text : List Char) : Tokens :=
  let c := Cursor.ofText text
  ⟨(c.eat? '\ufeff').getD c, #[], 0, [], none, [], true⟩

/-- Inside a flow collection layout has no meaning. -/
def inFlow (s : Tokens) : Bool :=
  !s.suspended.isEmpty

/-- The state with one more token. -/
def push (s : Tokens) (t : Token) : Tokens :=
  { s with sofar := s.sofar.push t }

/-- The state with a token that stands before the last tokens. -/
def insert (s : Tokens) (index : Nat) (t : Token) : Tokens :=
  { s with sofar := s.sofar.extract 0 index ++ #[t] ++ s.sofar.extract index s.sofar.size }

/-- The state further on in the text. -/
def goto (s : Tokens) (c : Cursor) : Tokens :=
  { s with cursor := c }

/-! ### Indentation -/

/-- Ends the block collections whose margin is beyond `margin`, of those in the list. -/
def closeBlocks (margin : Nat) (s : Tokens) : List Nat → Tokens
  | []         => s
  | m :: outer =>
    if margin < s.margin then
      closeBlocks margin { s.push .blockEnd with margin := m, outer := outer } outer
    else s

/-- Ends the block collections whose margin is beyond `margin`. -/
def closeBeyond (s : Tokens) (margin : Nat) : Tokens :=
  if s.inFlow then s else closeBlocks margin s s.outer

/-- Opens a block collection at a column to the right of the innermost one; its token stands
before those from `index` on. -/
def openBlock (s : Tokens) (column : Nat) (index : Nat) (t : Token) : Tokens :=
  if s.inFlow || column < s.margin then s
  else { s.insert index t with margin := column + 1, outer := s.margin :: s.outer }

/-! ### Candidates -/

/-- The candidate has to be a key. -/
def isRequired : Option Candidate → Bool
  | some k => k.required
  | none   => false

/-- Gives up the candidate of this level. -/
def forget (s : Tokens) : Option Tokens :=
  if isRequired s.candidate then none else some { s with candidate := none }

/-- Marks what begins here as a candidate, if a key may stand here. -/
def remember (s : Tokens) : Option Tokens :=
  if s.keyAllowed then do
    let s ← s.forget
    let required := !s.inFlow && s.margin == s.cursor.column + 1
    some { s with candidate := some ⟨s.sofar.size, s.cursor.place, required⟩ }
  else some s

/-- The candidate lies in an earlier line or too far back. -/
def isOld (now : Place) : Option Candidate → Bool
  | some k => k.place.line < now.line || k.place.index + 1024 < now.index
  | none   => false

/-- Gives up all candidates that are too old. -/
def forgetOld (s : Tokens) : Option Tokens :=
  let now := s.cursor.place
  if (s.candidate :: s.suspended).any fun k => isOld now k && isRequired k then none
  else
    let keep (k : Option Candidate) := if isOld now k then none else k
    some { s with candidate := keep s.candidate, suspended := s.suspended.map keep }

/-! ### Between tokens -/

/-- Up to `n` lines of blanks and comments.  Where a key may begin in a block, a tab is no
blank. -/
def skipWithin : (n : Nat) → Tokens → Tokens
  | 0,     s => s
  | n + 1, s =>
    let tabs := s.inFlow || !s.keyAllowed
    let c := s.cursor.skipWhile fun x => x == ' ' || (tabs && x == '\t')
    let c := if c.rest.head? == some '#' then c.skipWhile (!isBreak ·) else c
    match c.lineBreak? with
    | some (_, c) => skipWithin n { s with cursor := c, keyAllowed := s.keyAllowed || !s.inFlow }
    | none        => s.goto c

/-! ### Directives -/

/-- A number of at most nine digits. -/
def versionNumber : Reader Nat := fun c =>
  let (ds, c) := c.run Char.isDigit
  if 9 < ds.length then none else (Text.natural? 10 ds).map (·, c)

/-- A character of a tag; commas and square brackets belong to one only between angle brackets
and in directives. -/
def isTagChar (wide : Bool) (c : Char) : Bool :=
  isNameChar c || ";/?:@&=+$.%!~*'()".toList.contains c || (wide && ",[]".toList.contains c)

/-- The length of a UTF-8 sequence by its first byte. -/
def sequenceLength? (byte : Nat) : Option Nat :=
  if byte < 0x80 then some 1
  else if 0xc0 ≤ byte && byte < 0xe0 then some 2
  else if 0xe0 ≤ byte && byte < 0xf0 then some 3
  else if 0xf0 ≤ byte && byte < 0xf8 then some 4
  else none

/-- The next `n` bytes, each written as a percent sign and two hexadecimal digits. -/
def escapedBytes : (n : Nat) → List Char → Option (List Nat)
  | 0,     _                    => some []
  | n + 1, '%' :: a :: b :: rest => do
    let byte ← Text.natural? 16 [a, b]
    let bytes ← escapedBytes n rest
    some (byte :: bytes)
  | _ + 1, _                    => none

/-- The character written by escaped bytes, and how many of them there are. -/
def escapedChar (text : List Char) : Option (Char × Nat) := do
  let first ← escapedBytes 1 text
  let n ← sequenceLength? (first.headD 0)
  let bytes ← escapedBytes n text
  let s ← String.fromUTF8? ⟨(bytes.map UInt8.ofNat).toArray⟩
  match s.toList with
  | [c] => some (c, n)
  | _   => none

/-- Up to `n` characters of a tag. -/
def tagTextWithin (wide : Bool) : (n : Nat) → Reader (List Char)
  | 0,     c => some ([], c)
  | n + 1, c =>
    match c.rest with
    | []     => some ([], c)
    | x :: _ =>
      if !isTagChar wide x then some ([], c)
      else do
        let (x, k) ← if x == '%' then (escapedChar c.rest).map fun (x, k) => (x, 3 * k)
          else some (x, 1)
        let (xs, c) ← tagTextWithin wide n (c.advance k)
        some (x :: xs, c)

/-- The characters of a tag. -/
def tagText (wide : Bool) : Reader (List Char) := fun c =>
  tagTextWithin wide c.rest.length c

/-- An exclamation mark, a name, and one more mark if it follows. -/
def tagHandle : Reader (List Char) := fun c => do
  let c ← c.eat? '!'
  let (name, c) := c.run isNameChar
  match c.eat? '!' with
  | some c => some ('!' :: name ++ ['!'], c)
  | none   => some ('!' :: name, c)

/-- The version that a directive names. -/
def versionDirective : Reader Token := fun c => do
  let (major, c) ← versionNumber (c.skipWhile isBlank)
  let c ← c.eat? '.'
  let (minor, c) ← versionNumber c
  some (.version major minor, c)

/-- The handle that a directive defines, and what it stands for. -/
def tagDirective : Reader Token := fun c => do
  let (handle, c) ← tagHandle (c.skipWhile isBlank)
  if handle != ['!'] && handle.getLast? != some '!' then none
  else if !c.rest.head?.any isBlank then none
  else do
    let (expansion, c) ← tagText true (c.skipWhile isBlank)
    if expansion.isEmpty || !endsWord c.rest then none
    else some (.tagDirective (String.ofList handle) (String.ofList expansion), c)

/-- A directive and the rest of its line. -/
def directive : Reader Token := fun c => do
  let (name, c) := (c.advance 1).run isNameChar
  if !endsWord c.rest then none
  else do
    let (t, c) ← match String.ofList name with
      | "YAML" => versionDirective c
      | "TAG"  => tagDirective c
      | _      => none
    let c ← c.lineTail?
    some (t, c.pastBreak)

/-! ### Properties of nodes -/

/-- The name of an anchor or an alias, from its indicator on. -/
def anchorName : Reader String := fun c =>
  let (name, c) := (c.advance 1).run isNameChar
  let ends := endsWord c.rest || c.rest.head?.any ("?:,]\x7d%@\x60".toList.contains ·)
  if name.isEmpty || !ends then none else some (String.ofList name, c)

/-- A tag: in full between angle brackets, behind a handle, or local. -/
def tag : Reader Token := fun c =>
  match c.rest with
  | _ :: '<' :: _ => do
    let (suffix, c) ← tagText true (c.advance 2)
    let c ← c.eat? '>'
    if suffix.isEmpty then none else some (.tag "" (String.ofList suffix), c)
  | _ => do
    let (handle, c) ← tagHandle c
    if 1 < handle.length && handle.getLast? == some '!' then do
      let (suffix, c) ← tagText false c
      if suffix.isEmpty then none
      else some (.tag (String.ofList handle) (String.ofList suffix), c)
    else do
      let (more, c) ← tagText false c
      let suffix := handle.drop 1 ++ more
      if suffix.isEmpty then some (.tag "" "!", c) else some (.tag "!" (String.ofList suffix), c)

/-! ### Tokens -/

/-- The token of a directive. -/
def directiveToken (s : Tokens) : Option Tokens := do
  let s ← (s.closeBeyond 0).forget
  let (t, c) ← directive s.cursor
  some { (s.push t).goto c with keyAllowed := false }

/-- The token of three dashes or three dots. -/
def documentMark (s : Tokens) (t : Token) : Option Tokens := do
  let s ← (s.closeBeyond 0).forget
  some { (s.push t).goto (s.cursor.advance 3) with keyAllowed := false }

/-- The token of an opening bracket. -/
def flowStart (s : Tokens) (t : Token) : Option Tokens := do
  let s ← s.remember
  some { (s.push t).goto (s.cursor.advance 1) with
    candidate := none, suspended := s.candidate :: s.suspended, keyAllowed := true }

/-- The token of a closing bracket. -/
def flowEnd (s : Tokens) (t : Token) : Option Tokens := do
  let s ← s.forget
  some { (s.push t).goto (s.cursor.advance 1) with
    candidate := s.suspended.headD s.candidate, suspended := s.suspended.tail,
    keyAllowed := false }

/-- The token of a comma. -/
def comma (s : Tokens) : Option Tokens := do
  let s ← s.forget
  some { (s.push .flowEntry).goto (s.cursor.advance 1) with keyAllowed := true }

/-- The token of a dash that introduces an item. -/
def dash (s : Tokens) : Option Tokens := do
  if !s.inFlow && !s.keyAllowed then none
  let s := s.openBlock s.cursor.column s.sofar.size .blockSequenceStart
  let s ← s.forget
  some { (s.push .blockEntry).goto (s.cursor.advance 1) with keyAllowed := true }

/-- The token of a question mark that introduces a key. -/
def questionMark (s : Tokens) : Option Tokens := do
  if !s.inFlow && !s.keyAllowed then none
  let s := s.openBlock s.cursor.column s.sofar.size .blockMappingStart
  let s ← s.forget
  some { (s.push .key).goto (s.cursor.advance 1) with keyAllowed := !s.inFlow }

/-- The token of a colon that introduces a value, and the tokens of its key if that was a
candidate. -/
def colon (s : Tokens) : Option Tokens := do
  let s ← match s.candidate with
    | some k =>
      let s := (s.insert k.index .key).openBlock k.place.column k.index .blockMappingStart
      some { s with candidate := none, keyAllowed := false }
    | none =>
      if !s.inFlow && !s.keyAllowed then none
      else
        let s := s.openBlock s.cursor.column s.sofar.size .blockMappingStart
        some { s with keyAllowed := !s.inFlow }
  some ((s.push .value).goto (s.cursor.advance 1))

/-- The token of an anchor, an alias or a tag, which `read` yields. -/
def property (s : Tokens) (read : Reader Token) : Option Tokens := do
  let s ← s.remember
  let (t, c) ← read s.cursor
  some { (s.push t).goto c with keyAllowed := false }

/-- A tag ends where a word ends, or at a comma in a flow collection. -/
def tagProperty (s : Tokens) : Reader Token := fun c => do
  let (t, c) ← tag c
  if endsWord c.rest || (s.inFlow && c.rest.head? == some ',') then some (t, c) else none

/-- The token of a block scalar. -/
def blockScalar (s : Tokens) (style : Style) : Option Tokens := do
  let s ← s.forget
  let (text, c) ← block (style == .literal) s.margin s.cursor
  some { (s.push (.scalar style (String.ofList text))).goto c with keyAllowed := true }

/-- The token of a quoted scalar. -/
def quotedScalar (s : Tokens) (quote : Char) : Option Tokens :=
  s.property fun c =>
    (quoted quote c).map fun (text, c) => (.scalar .quoted (String.ofList text), c)

/-- The token of a plain scalar.  If a line break follows it, a key may follow. -/
def plainScalar (s : Tokens) : Option Tokens := do
  let s ← s.remember
  let (p, c) ← plain s.inFlow s.margin s.cursor
  some { (s.push (.scalar .plain (String.ofList p.text))).goto c with keyAllowed := p.atBreak }

/-- A plain scalar can begin with this character, or with a dash, a question mark or a colon that
is no indicator. -/
def startsPlain (s : Tokens) (x : Char) (rest : List Char) : Bool :=
  !(endsWord [x] || "-?:,[]\x7b\x7d#&*!|>'\"%@\x60".toList.contains x) ||
  (x == '-' && !rest.head?.any isBlank) ||
  (!s.inFlow && (x == '?' || x == ':') && !endsWord rest)

/-- The next token, which begins with `x`. -/
def next (s : Tokens) (x : Char) (rest : List Char) : Option Tokens :=
  let word := endsWord rest
  if s.cursor.column == 0 && x == '%' then s.directiveToken
  else if s.cursor.atDocumentMark then
    s.documentMark (if x == '-' then .documentStart else .documentEnd)
  else
    match x with
    | '['  => s.flowStart .flowSequenceStart
    | '{'  => s.flowStart .flowMappingStart
    | ']'  => s.flowEnd .flowSequenceEnd
    | '}'  => s.flowEnd .flowMappingEnd
    | ','  => s.comma
    | '*'  => s.property fun c => (anchorName c).map fun (n, c) => (.alias n, c)
    | '&'  => s.property fun c => (anchorName c).map fun (n, c) => (.anchor n, c)
    | '!'  => s.property s.tagProperty
    | '\'' => s.quotedScalar '\''
    | '"'  => s.quotedScalar '"'
    | _    =>
      if x == '-' && word then s.dash
      else if x == '?' && (s.inFlow || word) then s.questionMark
      else if x == ':' && (s.inFlow || word) then s.colon
      else if x == '|' && !s.inFlow then s.blockScalar .literal
      else if x == '>' && !s.inFlow then s.blockScalar .folded
      else if s.startsPlain x rest then s.plainScalar
      else none

/-- Up to `n` more tokens and the end of the text. -/
def restWithin : (n : Nat) → Tokens → Option (List Token)
  | 0,     _ => none
  | n + 1, s => do
    let s := skipWithin (s.cursor.rest.length + 1) s
    let s ← s.forgetOld
    match s.cursor.rest with
    | []        => do
      let s ← (s.closeBeyond 0).forget
      some s.sofar.toList
    | x :: rest =>
      let s := s.closeBeyond (s.cursor.column + 1)
      let s ← s.next x rest
      restWithin n s

end Tokens

/-- The tokens of a text. -/
def Tokens.ofText? (text : String) : Option (List Token) :=
  let text := text.toList
  if text.all isAllowed then restWithin (text.length + 1) (.start text) else none

end SchemaEnums.Data.Yaml
