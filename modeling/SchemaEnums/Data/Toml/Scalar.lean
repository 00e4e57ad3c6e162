import SchemaEnums.Text.Cursor
import SchemaEnums.Text.Escape
import SchemaEnums.Data.Json

/-!
# Data — Toml — Scalar

The values of TOML that hold no others: strings, numbers, truth values and moments in time.

Strings are read by their quotes.  Everything else is one run of characters, cut first and then
classified by `Scalar.ofChars?`.
-/

namespace SchemaEnums.Data.Toml
open Text

/-- A value that holds no others.  A moment's fields are checked when it is read, and nobody asks
for them later. -/
inductive Scalar where
  | string  (value : String)
  | integer (value : Int)
  | float   (isFinite : Bool)
  | boolean (value : Bool)
  | moment
deriving Repr, DecidableEq

/-! ### Characters -/

/-- A space or a tab. -/
def isSpace (c : Char) : Bool :=
  c == ' ' || c == '\t'

/-- A character that may stand in a comment or a string: no control character but the tab. -/
def isVisible (c : Char) : Bool :=
  c == '\t' || (' ' ≤ c && c != '\x7f')

/-- A line feed, or a carriage return and a line feed. -/
def lineBreak : Reader Unit := fun c =>
  match c.rest with
  | '\n' :: _         => some ((), c.advance 1)
  | '\r' :: '\n' :: _ => some ((), c.advance 2)
  | _                 => none

/-- The place after blanks. -/
def skip (c : Cursor) : Cursor :=
  c.skipWhile isSpace

/-! ### Strings -/

/-- The character that a single letter after the backslash stands for. -/
def letterEscape? : Char → Option Char
  | 'b'  => some '\x08'
  | 't'  => some '\t'
  | 'n'  => some '\n'
  | 'f'  => some '\x0c'
  | 'r'  => some '\r'
  | 'e'  => some '\x1b'
  | '"'  => some '"'
  | '\\' => some '\\'
  | _    => none

/-- The text of a string on one line. -/
def decode : List Char → Option (List Char)
  | [] => some []
  | '\\' :: 'x' :: a :: b :: rest => do
    let x ← (Text.natural? 16 [a, b]).bind scalar?
    (decode rest).map (x :: ·)
  | '\\' :: 'u' :: a :: b :: c :: d :: rest => do
    let x ← (Text.natural? 16 [a, b, c, d]).bind scalar?
    (decode rest).map (x :: ·)
  | '\\' :: 'U' :: a :: b :: c :: d :: e :: f :: g :: h :: rest => do
    let x ← (Text.natural? 16 [a, b, c, d, e, f, g, h]).bind scalar?
    (decode rest).map (x :: ·)
  | '\\' :: c :: rest => do
    let x ← letterEscape? c
    (decode rest).map (x :: ·)
  | c :: rest => if c == '\\' || !isVisible c then none else (decode rest).map (c :: ·)

/-- The lines of a string, each without its line feed and a carriage return before that. -/
def splitLines : List Char → List (List Char)
  | []                  => [[]]
  | '\n' :: rest         => [] :: splitLines rest
  | '\r' :: '\n' :: rest => [] :: splitLines rest
  | c :: rest           =>
    match splitLines rest with
    | []      => [[c]]
    | l :: ls => (c :: l) :: ls

/-- The line without a backslash and blanks at its end, if there is an odd number of backslashes
before those blanks. -/
def continued? (line : List Char) : Option (List Char) :=
  let back := line.reverse.dropWhile isSpace
  if (back.takeWhile (· == '\\')).length % 2 = 1 then some (back.drop 1).reverse else none

/-- The lines joined by line feeds.  A line that ends with a backslash goes on at the first
character of a later line that is no blank; `trim` tells that the first line is such a later
one. -/
def joinLines (trim : Bool) : List (List Char) → Option (List Char)
  | []         => some []
  | line :: ls => do
    let line := if trim then line.dropWhile isSpace else line
    if trim && line.isEmpty && !ls.isEmpty then joinLines true ls
    else
      match continued? line, ls with
      | some line, _ :: _ => do
        let here ← decode line
        (joinLines true ls).map (here ++ ·)
      | _,         []     => decode line
      | none,      _ :: _ => do
        let here ← decode line
        (joinLines false ls).map fun more => here ++ '\n' :: more

/-- How many characters stand before three quotes; up to two more quotes before them belong to
the text. -/
def multilineLength (quote : Char) (escapes : Bool) : List Char → Nat
  | [] => 0
  | c :: rest =>
    if c == quote && rest.take 2 == [quote, quote] then
      min 2 ((rest.drop 2).takeWhile (· == quote)).length
    else if escapes && c == '\\' then
      match rest with
      | _ :: rest => multilineLength quote escapes rest + 2
      | []        => 1
    else multilineLength quote escapes rest + 1

/-- A string on several lines, from its first character on. -/
def multiline (quote : Char) (read : List Char → Option (List Char)) : Reader String := fun c => do
  let c := match lineBreak c with
    | some (_, c) => c
    | none        => c
  let n := multilineLength quote (quote == '"') c.rest
  let text ← read (c.rest.take n)
  let c ← (c.advance n).eat? [quote, quote, quote]
  some (String.ofList text, c)

/-- The text of a literal string on several lines. -/
def literalLines (text : List Char) : Option (List Char) :=
  let lines := splitLines text
  if lines.all (·.all isVisible) then some (List.intercalate ['\n'] lines) else none

/-- A string on one line, in either kind of quotes. -/
def simpleString : Reader String := fun c =>
  match c.rest with
  | '"' :: rest => do
    let n := quotedLength '"' rest
    let text ← decode (rest.take n)
    let c ← (c.advance (n + 1)).eat? ['"']
    some (String.ofList text, c)
  | '\'' :: rest => do
    let text := rest.takeWhile (· != '\'')
    let c ← (c.advance (text.length + 1)).eat? ['\'']
    if text.all isVisible then some (String.ofList text, c) else none
  | _ => none

/-- A string. -/
def string : Reader String := fun c =>
  match c.eat? ['"', '"', '"'], c.eat? ['\'', '\'', '\''] with
  | some c, _      => multiline '"' (fun text => joinLines false (splitLines text)) c
  | none,   some c => multiline '\'' literalLines c
  | none,   none   => simpleString c

/-! ### Numbers -/

/-- The digits of a number without the underscores between them; an underscore stands between two
digits only. -/
def ungrouped? (isDigit : Char → Bool) : List Char → Option (List Char)
  | []               => none
  | [c]              => if isDigit c then some [c] else none
  | c :: '_' :: rest => if isDigit c then (ungrouped? isDigit rest).map (c :: ·) else none
  | c :: rest        => if isDigit c then (ungrouped? isDigit rest).map (c :: ·) else none

/-- The value of decimal digits that do not begin with a superfluous zero. -/
def decimal? (text : List Char) : Option (List Char) := do
  let ds ← ungrouped? Char.isDigit text
  if 1 < text.length && text.head? == some '0' then none else some ds

/-- A sign and what follows it. -/
def signed : List Char → Bool × List Char
  | '-' :: rest => (true, rest)
  | '+' :: rest => (false, rest)
  | text        => (false, text)

/-- A whole number in a base that is named by a letter after a zero. -/
def based? : List Char → Option Nat
  | '0' :: 'x' :: ds => do
    let ds ← ungrouped? (fun c => (hexDigit? c).isSome) ds
    digitsValue? 16 ds
  | '0' :: 'o' :: ds => do
    let ds ← ungrouped? (fun c => '0' ≤ c && c ≤ '7') ds
    digitsValue? 8 ds
  | '0' :: 'b' :: ds => do
    let ds ← ungrouped? (fun c => c == '0' || c == '1') ds
    digitsValue? 2 ds
  | _ => none

/-- A whole number.  It is refused if it does not fit 128 bits. -/
def integer? (text : List Char) : Option Int := do
  let (negative, digits) := signed text
  let n ← (based? text).or ((decimal? digits).bind (digitsValue? 10))
  if negative then
    if n ≤ Nat.pow 2 127 then some (-n) else none
  else if n < Nat.pow 2 128 then some n else none

/-- A number with a fraction, an exponent or both, as the digits that it is made of. -/
def float? (text : List Char) : Option Number := do
  let (negative, text) := signed text
  let isMark (c : Char) := c == 'e' || c == 'E'
  let mantissa := text.takeWhile (!isMark ·)
  let whole := mantissa.takeWhile (· != '.')
  let wholeDigits ← decimal? whole
  let fraction ←
    if mantissa.length == whole.length then some []
    else ungrouped? Char.isDigit (mantissa.drop (whole.length + 1))
  let exponent : Int ← match text.drop mantissa.length with
    | []      => some 0
    | _ :: es => do
      let (negative, es) := signed es
      let ds ← ungrouped? Char.isDigit es
      let n ← digitsValue? 10 ds
      some (if negative then -n else n)
  let significand ← digitsValue? 10 (wholeDigits ++ fraction)
  if whole.length == text.length then none
  else some ⟨negative, significand, exponent - fraction.length, false⟩

/-! ### Moments -/

/-- The first `n` characters as a number, and the rest. -/
def fixed? (n : Nat) (text : List Char) : Option (Nat × List Char) :=
  if (text.take n).length = n && (text.take n).all Char.isDigit then
    (digitsValue? 10 (text.take n)).map (·, text.drop n)
  else none

/-- The text after `c`. -/
def after? (c : Char) : List Char → Option (List Char)
  | x :: rest => if x == c then some rest else none
  | []        => none

/-- The number of days in a month. -/
def daysIn (year month : Nat) : Nat :=
  if month = 2 then
    if year % 4 = 0 && (year % 100 != 0 || year % 400 = 0) then 29 else 28
  else if [4, 6, 9, 11].contains month then 30
  else 31

/-- The text after a date `YYYY-MM-DD`. -/
def date? (text : List Char) : Option (List Char) := do
  let (year, text) ← fixed? 4 text
  let (month, text) ← fixed? 2 (← after? '-' text)
  let (day, text) ← fixed? 2 (← after? '-' text)
  if 1 ≤ month && month ≤ 12 && 1 ≤ day && day ≤ daysIn year month then some text else none

/-- The text after a time `hh:mm`, with or without seconds and a fraction of them. -/
def time? (text : List Char) : Option (List Char) := do
  let (hour, text) ← fixed? 2 text
  let (minute, text) ← fixed? 2 (← after? ':' text)
  if 23 < hour || 59 < minute then none
  else
    match after? ':' text with
    | none      => some text
    | some text => do
      let (second, text) ← fixed? 2 text
      if 60 < second then none
      else
        match after? '.' text with
        | none      => some text
        | some text =>
          if text.head?.any Char.isDigit then some (text.dropWhile Char.isDigit) else none

/-- A moment's offset from universal time, or nothing. -/
def isOffset : List Char → Bool
  | []          => true
  | ['Z']       => true
  | ['z']       => true
  | sign :: text =>
    (sign == '+' || sign == '-') &&
    (do let (hour, text) ← fixed? 2 text
        let (minute, text) ← fixed? 2 (← after? ':' text)
        some (hour ≤ 23 && minute ≤ 59 && text.isEmpty)).getD false

/-- A date, a time, or both with or without an offset. -/
def isMoment (text : List Char) : Bool :=
  match date? text with
  | some []          => true
  | some (x :: rest) =>
    (x == 'T' || x == 't' || x == ' ') && ((time? rest).map isOffset).getD false
  | none             => time? text == some []

/-! ### Runs -/

/-- The value that a run of characters stands for. -/
def Scalar.ofChars? (text : List Char) : Option Scalar :=
  if text == "true".toList then some (.boolean true)
  else if text == "false".toList then some (.boolean false)
  else if (signed text).2 == "inf".toList || (signed text).2 == "nan".toList then
    some (.float true)
  else if isMoment text then some .moment
  else ((integer? text).map .integer).or ((float? text).map fun n => .float n.isFinite)

/-- A character of a number, a truth value or a moment. -/
def isRunChar (c : Char) : Bool :=
  c.isAlphanum || c == '_' || c == '+' || c == '-' || c == '.' || c == ':'

/-- A scalar without quotes.  One space may stand between a date and a time. -/
def run : Reader Scalar := fun c => do
  let (text, c₁) := c.run isRunChar
  let (time, c₂) := (c₁.advance 1).run isRunChar
  let isPair := date? text == some [] && c₁.rest.head? == some ' ' &&
    time.head?.any Char.isDigit
  if isPair then do
    let x ← Scalar.ofChars? (text ++ ' ' :: time)
    some (x, c₂)
  else do
    let x ← Scalar.ofChars? text
    some (x, c₁)

/-- A scalar. -/
def scalar : Reader Scalar := fun c =>
  if c.rest.head? == some '"' || c.rest.head? == some '\'' then
    (string c).map fun (s, c) => (.string s, c)
  else run c

end SchemaEnums.Data.Toml
