import SchemaEnums.Text.Cursor
import SchemaEnums.Text.Escape

/-!
# Data — Json

JSON texts.  `Json.read` accepts exactly what the grammar allows and keeps every member of an
object, repeated names too.  Whether a string names characters only, and whether a number fits,
is not a question of grammar: `Json.isSound` asks it of a whole value, and `Json.lastMembers`
resolves repeated names, where a document is read as data.
-/

namespace SchemaEnums.Data
open Text

/-- A number: a sign, and the digits with the power of ten that they are times. -/
structure Number where
  negative    : Bool
  significand : Nat
  exponent    : Int
  /-- Written without fraction and exponent. -/
  isWhole     : Bool
deriving Repr, DecidableEq

/-- The bound of unsigned machine words. -/
def wordBound : Nat := Nat.pow 2 64

/-- The natural number below `wordBound` that is written without sign, fraction and exponent. -/
def Number.natural? (n : Number) : Option Nat :=
  if n.isWhole && !n.negative && n.significand < wordBound then some n.significand else none

/-- The least magnitude that rounds to infinity in double precision. -/
def overflowBound : Nat := Nat.pow 2 1024 - Nat.pow 2 970

/-- The number has a finite value in double precision. -/
def Number.isFinite (n : Number) : Bool :=
  let size := (Nat.toDigits 10 n.significand).length + n.exponent
  if n.significand = 0 || size < 300 then true
  else if 310 < size then false
  else if 0 ≤ n.exponent then n.significand * Nat.pow 10 n.exponent.toNat < overflowBound
  else n.significand < overflowBound * Nat.pow 10 (-n.exponent).toNat

/-- A JSON value.  A string is `none` if its escapes name half of a surrogate pair. -/
inductive Json where
  | null
  | bool   (value : Bool)
  | number (value : Number)
  | string (value : Option String)
  | array  (elements : List Json)
  | object (members : List (Option String × Json))

namespace Json

/-! ### Strings -/

/-- The code points and surrogates that a string body names. -/
def units : List Char → Option (List Nat)
  | [] => some []
  | '\\' :: 'u' :: a :: b :: c :: d :: rest => do
    let n ← Text.natural? 16 [a, b, c, d]
    let ns ← units rest
    some (n :: ns)
  | '\\' :: c :: rest => do
    let x ← shortEscape? c
    let ns ← units rest
    some (x.toNat :: ns)
  | c :: rest =>
    if c == '\\' || c < ' ' then none else (units rest).map (c.toNat :: ·)

/-- The first half of a surrogate pair. -/
def isHighSurrogate (n : Nat) : Bool :=
  0xd800 ≤ n && n < 0xdc00

/-- The second half of a surrogate pair. -/
def isLowSurrogate (n : Nat) : Bool :=
  0xdc00 ≤ n && n < 0xe000

/-- The characters that code points and surrogate pairs name. -/
def characters : List Nat → Option (List Char)
  | []          => some []
  | [n]         => (scalar? n).map ([·])
  | h :: l :: r =>
    if isHighSurrogate h && isLowSurrogate l then do
      let c ← scalar? (0x10000 + (h - 0xd800) * 0x400 + (l - 0xdc00))
      let cs ← characters r
      some (c :: cs)
    else do
      let c ← scalar? h
      let cs ← characters (l :: r)
      some (c :: cs)

/-- A string literal. -/
def literal : Reader (Option String) := fun c => do
  let c ← c.eat? ['"']
  let n := quotedLength '"' c.rest
  let ns ← units (c.rest.take n)
  let c ← (c.advance n).eat? ['"']
  some ((characters ns).map String.ofList, c)

/-! ### Numbers -/

/-- One or more digits. -/
def digits : Reader (List Char) := fun c =>
  let (ds, c) := c.run Char.isDigit
  if ds.isEmpty then none else some (ds, c)

/-- Digits without a leading zero, or a single zero. -/
def wholePart : Reader (List Char) := fun c => do
  let (ds, c) ← digits c
  if ds.head? == some '0' && 1 < ds.length then none else some (ds, c)

/-- The digits behind a point, if one follows; a point without digits is an error. -/
def fractionPart : Reader (List Char) := fun c =>
  match c.eat? ['.'] with
  | some c => digits c
  | none   => some ([], c)

/-- The exponent, if one follows; an exponent without digits is an error. -/
def exponentPart : Reader (Option Int) := fun c =>
  match (c.eat? ['e']).or (c.eat? ['E']) with
  | none   => some (none, c)
  | some c => do
    let (negative, c) := match c.eat? ['-'] with
      | some c => (true, c)
      | none   => (false, (c.eat? ['+']).getD c)
    let (ds, c) ← digits c
    let n : Int := (digitsValue? 10 ds).getD 0
    some (some (if negative then -n else n), c)

/-- A number. -/
def numeral : Reader Number := fun c => do
  let (negative, c) := match c.eat? ['-'] with
    | some c => (true, c)
    | none   => (false, c)
  let (whole, c) ← wholePart c
  let (fraction, c) ← fractionPart c
  let (exponent, c) ← exponentPart c
  let significand := (digitsValue? 10 (whole ++ fraction)).getD 0
  some (⟨negative, significand, exponent.getD 0 - fraction.length,
    fraction.isEmpty && exponent.isNone⟩, c)

/-! ### Values -/

/-- White space between tokens. -/
def isSpace (c : Char) : Bool :=
  c == ' ' || c == '\n' || c == '\t' || c == '\r'

/-- The place after white space. -/
def skip (c : Cursor) : Cursor :=
  c.skipWhile isSpace

/-- Items in brackets, separated by commas. -/
def bracketed {α : Type} (opening closing : Char) (item : Reader α) : Reader (List α) := fun c => do
  let c ← c.eat? [opening]
  match (skip c).eat? [closing] with
  | some c => some ([], c)
  | none   => do
    let (first, c) ← item (skip c)
    let (more, c) := Reader.many skip (fun c => do item (skip (← c.eat? [',']))) c
    let c ← (skip c).eat? [closing]
    some (first :: more, c)

/-- A value with at most `depth` brackets around each other. -/
def valueWithin : (depth : Nat) → Reader Json
  | 0         => fun _ => none
  | depth + 1 => fun c =>
    match c.rest with
    | 'n' :: _ => (c.eat? "null".toList).map (.null, ·)
    | 't' :: _ => (c.eat? "true".toList).map (.bool true, ·)
    | 'f' :: _ => (c.eat? "false".toList).map (.bool false, ·)
    | '"' :: _ => (literal c).map fun (s, c) => (.string s, c)
    | '[' :: _ => (bracketed '[' ']' (valueWithin depth) c).map fun (vs, c) => (.array vs, c)
    | '{' :: _ =>
      let pair : Reader (Option String × Json) := fun c => do
        let (key, c) ← literal c
        let c ← (skip c).eat? [':']
        let (value, c) ← valueWithin depth (skip c)
        some ((key, value), c)
      (bracketed '{' '}' pair c).map fun (ms, c) => (.object ms, c)
    | _        => (numeral c).map fun (n, c) => (.number n, c)

/-- The value that a text holds, with nothing but white space around it. -/
def read (text : String) : Option Json := do
  let c := skip (.ofText text.toList)
  let (value, c) ← valueWithin (c.rest.length + 1) c
  if (skip c).rest.isEmpty then some value else none

/-! ### Documents as data -/

mutual

/-- All strings name characters, all numbers are finite, and fewer than `depth` brackets stand
around each other. -/
def isSoundWithin : (depth : Nat) → Json → Bool
  | _,         .null      => true
  | _,         .bool _    => true
  | _,         .number n  => n.isFinite
  | _,         .string s  => s.isSome
  | 0,         .array _   => false
  | depth + 1, .array vs  => depth != 0 && areSoundWithin depth vs
  | 0,         .object _  => false
  | depth + 1, .object ms => depth != 0 && membersAreSoundWithin depth ms

/-- Every value of a list is sound. -/
def areSoundWithin : (depth : Nat) → List Json → Bool
  | _,     []      => true
  | depth, v :: vs => isSoundWithin depth v && areSoundWithin depth vs

/-- Every name and every value of a list of members is sound. -/
def membersAreSoundWithin : (depth : Nat) → List (Option String × Json) → Bool
  | _,     []           => true
  | depth, (k, v) :: ms =>
    k.isSome && isSoundWithin depth v && membersAreSoundWithin depth ms

end

/-- The value can be read as data: brackets are at most 127 deep. -/
def isSound (j : Json) : Bool :=
  isSoundWithin 128 j

/-- The members whose name does not come again, in their order. -/
def lastMembers : List (Option String × Json) → List (Option String × Json)
  | []      => []
  | m :: ms => if ms.any (·.1 == m.1) then lastMembers ms else m :: lastMembers ms

/-- The value of a name in an object: that of its last member. -/
def get? (j : Json) (name : String) : Option Json :=
  match j with
  | .object ms => ((lastMembers ms).find? (·.1 == some name)).map (·.2)
  | _          => none

end Json

end SchemaEnums.Data
