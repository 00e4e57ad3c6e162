import SchemaEnums.Text.Position

/-!
# Text — Cursor

A place in a text together with what is still to be read, and the readers built on it.  A
`Reader` either fails, and then nothing has happened, or yields a value and the place after it;
so a choice between readers is a choice between values.  A cursor is moved by `advance` alone,
which keeps the position in step with the characters passed (`advance_advance`).
-/

namespace SchemaEnums.Text

/-- A position and the characters from there on. -/
structure Cursor where
  position : Position
  rest     : List Char
deriving Repr, DecidableEq

namespace Cursor

/-- The beginning of a text. -/
def ofText (text : List Char) : Cursor := ⟨.start, text⟩

/-- The place `n` characters on, or the end. -/
def advance (c : Cursor) (n : Nat) : Cursor :=
  ⟨c.position.afterAll (c.rest.take n), c.rest.drop n⟩

@[simp] theorem rest_advance (c : Cursor) (n : Nat) : (c.advance n).rest = c.rest.drop n := rfl

theorem advance_zero (c : Cursor) : c.advance 0 = c := by
  simp [advance]

theorem advance_advance (c : Cursor) (m n : Nat) :
    (c.advance m).advance n = c.advance (m + n) := by
  simp only [advance, List.drop_drop, List.take_add, Position.afterAll_append]

/-- The longest run of `p` and the place after it. -/
def run (c : Cursor) (p : Char → Bool) : List Char × Cursor :=
  (c.rest.takeWhile p, c.advance (c.rest.takeWhile p).length)

/-- The place after the longest run of `p`. -/
def skipWhile (c : Cursor) (p : Char → Bool) : Cursor :=
  c.advance (c.rest.takeWhile p).length

/-- The place after `word`, if it stands here. -/
def eat? (c : Cursor) (word : List Char) : Option Cursor :=
  if word.isPrefixOf c.rest then some (c.advance word.length) else none

end Cursor

/-- Reads a value off the front of the text, or fails. -/
abbrev Reader (α : Type) := Cursor → Option (α × Cursor)

namespace Reader

variable {α : Type}

/-- At most one value for each character of `bound`, with `between` skipped before each. -/
def manyWithin (between : Cursor → Cursor) (read : Reader α) :
    (bound : List Char) → Cursor → List α × Cursor
  | [],         c => ([], c)
  | _ :: bound, c =>
    match read (between c) with
    | none         => ([], c)
    | some (a, c') =>
      let (as, c'') := manyWithin between read bound c'
      (a :: as, c'')

/-- As many values as follow each other, with `between` skipped before each.  No more can follow
than there are characters left, if each takes one. -/
def many (between : Cursor → Cursor) (read : Reader α) (c : Cursor) : List α × Cursor :=
  manyWithin between read c.rest c

/-- Items in brackets, separated by commas, with `between` skipped around each of them; one more
comma may follow the last item. -/
def listed (between : Cursor → Cursor) (opening closing : Char) (item : Reader α) :
    Reader (List α) := fun c => do
  let c ← c.eat? [opening]
  match item (between c) with
  | none => do
    let c ← (between c).eat? [closing]
    some ([], c)
  | some (first, c) => do
    let (more, c) := many between (fun c => do item (between (← c.eat? [',']))) c
    let c := ((between c).eat? [',']).getD c
    let c ← (between c).eat? [closing]
    some (first :: more, c)

end Reader

end SchemaEnums.Text
