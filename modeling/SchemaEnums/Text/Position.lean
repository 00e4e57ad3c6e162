/-!
# Text — Position

Lines and columns, both counted from one.  A line feed starts a line and every other character
takes one column, so a carriage return before a line feed leaves no trace and one that stands alone
is a column like any other.
-/

namespace SchemaEnums.Text

/-- A place in a text. -/
structure Position where
  line   : Nat
  column : Nat
deriving Repr, DecidableEq

namespace Position

/-- Where every text begins. -/
def start : Position := ⟨1, 1⟩

/-- The place after `c`. -/
def after (p : Position) (c : Char) : Position :=
  if c = '\n' then ⟨p.line + 1, 1⟩ else ⟨p.line, p.column + 1⟩

/-- The place after a run of characters. -/
def afterAll (p : Position) (text : List Char) : Position :=
  text.foldl after p

@[simp] theorem afterAll_nil (p : Position) : p.afterAll [] = p := rfl

@[simp] theorem afterAll_cons (p : Position) (c : Char) (text : List Char) :
    p.afterAll (c :: text) = (p.after c).afterAll text := rfl

theorem afterAll_append (p : Position) (s t : List Char) :
    p.afterAll (s ++ t) = (p.afterAll s).afterAll t :=
  List.foldl_append

/-- A place as `line:column`. -/
def text (p : Position) : String :=
  toString p.line ++ ":" ++ toString p.column

end Position

end SchemaEnums.Text
