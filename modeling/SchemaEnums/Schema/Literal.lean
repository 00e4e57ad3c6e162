import SchemaEnums.Text.Escape
import SchemaEnums.Schema.Fault

/-!
# Schema — Literal

String literals.  `bodyLength` measures the text between the quotes, where a backslash always
takes the next character with it; `decode` replaces the escapes of such a body.  A body is cut
first and decoded later, because a line that is no field or attribute is reported as such,
whatever its strings hold.
-/

namespace SchemaEnums.Schema.Literal
open Text

/-- A line feed or a carriage return. -/
def isLineBreak (c : Char) : Bool :=
  c == '\n' || c == '\r'

/-- The length of the longest string body at the front of the text. -/
def bodyLength : List Char → Nat
  | '\\' :: _ :: rest => bodyLength rest + 2
  | c :: rest         => if c == '"' || c == '\\' || isLineBreak c then 0 else bodyLength rest + 1
  | []                => 0

/-- The character of a `\u` escape: four hexadecimal digits, or a plus sign and three. -/
def unicode? : List Char → Option Char
  | '+' :: digits => (natural? 16 digits).bind scalar?
  | digits        => (natural? 16 digits).bind scalar?

/-- The text that a string body stands for. -/
def decode : List Char → Except Fault (List Char)
  | [] => .ok []
  | '\\' :: 'u' :: a :: b :: c :: d :: rest =>
    match unicode? [a, b, c, d] with
    | some x => (decode rest).map (x :: ·)
    | none   => .error .invalidUnicodeEscape
  | '\\' :: 'u' :: _ => .error .invalidUnicodeEscape
  | '\\' :: c :: rest =>
    match shortEscape? c with
    | some x => (decode rest).map (x :: ·)
    | none   => .error (.unknownEscape c)
  | ['\\'] => .ok []
  | c :: rest => (decode rest).map (c :: ·)

end SchemaEnums.Schema.Literal
