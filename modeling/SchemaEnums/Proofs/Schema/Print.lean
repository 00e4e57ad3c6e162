import SchemaEnums.Layout.Quote
import SchemaEnums.Proofs.Text.Reading
import SchemaEnums.Schema.Grammar

/-!
# Schema — Print

The canonical text of a schema, and which schemas have one that reads as them.

* `Document.print` sets one block after another and one item on each line; a block's own attributes
  follow its fields or values.
* `Document.WellFormed` asks of every word that it can be written: a name is a name, a path is
  names joined by dots, a number is digits.  Strings are free.
* `Document.unplaced` forgets where the names were read.
-/

namespace SchemaEnums.Schema
open Text Grammar

variable {α : Type}

/-! ### Words -/

/-- A letter or an underscore, then letters, digits, underscores and hyphens. -/
def IsName (s : List Char) : Prop :=
  ∃ x xs, s = x :: xs ∧ isNameStart x = true ∧ ∀ y ∈ xs, isNameChar y = true

instance : DecidablePred IsName
  | []      => .isFalse (by rintro ⟨x, xs, h, -⟩; cases h)
  | x :: xs => decidable_of_iff (isNameStart x = true ∧ xs.all isNameChar = true) (by
      rw [List.all_eq_true]
      exact ⟨fun ⟨hx, hxs⟩ => ⟨x, xs, rfl, hx, hxs⟩, by
        rintro ⟨y, ys, h, hy, hys⟩
        obtain ⟨rfl, rfl⟩ := List.cons.inj h
        exact ⟨hy, hys⟩⟩)

theorem isNameChar_of_isNameStart {x : Char} (h : isNameStart x = true) : isNameChar x = true := by
  simp only [isNameStart, isNameChar, Char.isAlphanum, Bool.or_eq_true] at h ⊢
  tauto

theorem IsName.all {n : List Char} (h : IsName n) : ∀ x ∈ n, isNameChar x = true := by
  obtain ⟨x, xs, rfl, hx, hxs⟩ := h
  exact List.forall_mem_cons.mpr ⟨isNameChar_of_isNameStart hx, hxs⟩

theorem IsName.ne_nil {n : List Char} (h : IsName n) : n ≠ [] := by
  obtain ⟨x, xs, rfl, -, -⟩ := h
  exact List.cons_ne_nil x xs

/-- Names joined by dots. -/
def IsPath (s : List Char) : Prop :=
  ∃ n ns, s = ['.'].intercalate (n :: ns) ∧ ∀ m ∈ n :: ns, IsName m

theorem IsName.isPath {s : List Char} (h : IsName s) : IsPath s :=
  ⟨s, [], by simp, by simpa using h⟩

/-- One or more digits. -/
def IsDigits (s : List Char) : Prop :=
  s ≠ [] ∧ ∀ x ∈ s, x.isDigit = true

instance : DecidablePred IsDigits := fun s =>
  decidable_of_iff (s ≠ [] ∧ s.all Char.isDigit = true) (by rw [IsDigits, List.all_eq_true])

/-- Digits, behind a minus sign or none, before a point and further digits or nothing. -/
def IsNumber (s : List Char) : Prop :=
  ∃ sign whole fraction, s = sign ++ whole ++ fraction ∧ (sign = [] ∨ sign = ['-']) ∧
    IsDigits whole ∧ (fraction = [] ∨ ∃ ds, fraction = '.' :: ds ∧ IsDigits ds)

/-! ### Well-formed schemas -/

/-- Every name, path and number of the value is one. -/
inductive Expression.WellFormed : Expression → Prop where
  | string (s : String) : WellFormed (.string s)
  | number {text : String} (h : IsNumber text.toList) : WellFormed (.number text)
  | constant {path : String} (h : IsPath path.toList) : WellFormed (.constant path)
  | call {path : String} {arguments : List Argument} (h : IsPath path.toList)
      (names : ∀ a ∈ arguments, ∀ n ∈ a.name, IsName n.toList)
      (values : ∀ a ∈ arguments, WellFormed a.value) : WellFormed (.call path arguments)
  | array {elements : List Expression} (values : ∀ e ∈ elements, WellFormed e) :
      WellFormed (.array elements)

def Argument.WellFormed (a : Argument) : Prop :=
  (∀ n ∈ a.name, IsName n.toList) ∧ a.value.WellFormed

def Identifier.WellFormed (i : Identifier) : Prop := IsName i.name.toList

structure Attribute.WellFormed (a : Attribute) : Prop where
  name      : IsPath a.name.toList
  arguments : ∀ x ∈ a.arguments, x.WellFormed

structure Field.WellFormed (f : Field) : Prop where
  name       : f.name.WellFormed
  type       : f.type.WellFormed
  attributes : ∀ a ∈ f.attributes, a.WellFormed

structure EnumValue.WellFormed (v : EnumValue) : Prop where
  name       : v.name.WellFormed
  attributes : ∀ a ∈ v.attributes, a.WellFormed

structure Setting.WellFormed (s : Setting) : Prop where
  key   : s.key.WellFormed
  value : s.value.WellFormed

/-- The name of the block and all that stands in it is well-formed. -/
def Block.WellFormed : Block → Prop
  | .model b  =>
    b.name.WellFormed ∧ (∀ f ∈ b.fields, f.WellFormed) ∧ ∀ a ∈ b.attributes, a.WellFormed
  | .enum b   =>
    b.name.WellFormed ∧ (∀ v ∈ b.values, v.WellFormed) ∧ ∀ a ∈ b.attributes, a.WellFormed
  | .config b => b.name.WellFormed ∧ ∀ s ∈ b.settings, s.WellFormed

def Document.WellFormed (d : Document) : Prop := ∀ b ∈ d.blocks, b.WellFormed

/-! ### Without places -/

def Identifier.unplaced (i : Identifier) : Identifier := { i with position := .start }

def Field.unplaced (f : Field) : Field :=
  { f with name := f.name.unplaced, type := f.type.unplaced }

def EnumValue.unplaced (v : EnumValue) : EnumValue := { v with name := v.name.unplaced }

def Setting.unplaced (s : Setting) : Setting := { s with key := s.key.unplaced }

/-- The block with all its names moved to one place. -/
def Block.unplaced : Block → Block
  | .model b  => .model { b with name := b.name.unplaced, fields := b.fields.map Field.unplaced }
  | .enum b   => .enum { b with name := b.name.unplaced, values := b.values.map EnumValue.unplaced }
  | .config b =>
    .config { b with name := b.name.unplaced, settings := b.settings.map Setting.unplaced }

/-- The schema up to the places of its names. -/
def Document.unplaced (d : Document) : Document := ⟨d.blocks.map Block.unplaced⟩

/-! ### Text -/

/-- A string between double quotes; they and backslashes, line feeds and carriage returns are
escaped. -/
def quoted (s : String) : List Char :=
  '"' :: (s.toList.flatMap (Layout.Quote.escape '"') ++ ['"'])

/-- Between brackets there is a space behind each comma and no other blank. -/
def bracketStyle (opening closing : Char) : Reader.ListStyle :=
  ⟨opening, closing, [], [' '], [], false⟩

mutual

def Expression.text : Expression → List Char
  | .string s            => quoted s
  | .number text         => text.toList
  | .constant path       => path.toList
  | .call path arguments => path.toList ++ (bracketStyle '(' ')').text (Argument.texts arguments)
  | .array elements      => (bracketStyle '[' ']').text (Expression.texts elements)

def Argument.text : Argument → List Char
  | .mk none value     => value.text
  | .mk (some n) value => n.toList ++ ':' :: ' ' :: value.text

def Expression.texts : List Expression → List (List Char)
  | []      => []
  | e :: es => e.text :: Expression.texts es

def Argument.texts : List Argument → List (List Char)
  | []      => []
  | a :: as => a.text :: Argument.texts as

end

theorem Expression.texts_eq (es : List Expression) :
    Expression.texts es = es.map Expression.text := by
  induction es with
  | nil => rw [Expression.texts, List.map_nil]
  | cons e es ih => rw [Expression.texts, ih, List.map_cons]

theorem Argument.texts_eq (as : List Argument) :
    Argument.texts as = as.map Argument.text := by
  induction as with
  | nil => rw [Argument.texts, List.map_nil]
  | cons a as ih => rw [Argument.texts, ih, List.map_cons]

/-- The attribute behind its marker; without arguments there are no parentheses. -/
def Attribute.text (a : Attribute) : List Char :=
  a.name.toList ++
    if a.arguments.isEmpty then [] else (bracketStyle '(' ')').text (a.arguments.map Argument.text)

def Arity.text : Arity → List Char
  | required => []
  | optional => ['?']
  | list     => ['[', ']']

/-- The attributes of a field or value, each behind a space. -/
def attributesText (as : List Attribute) : List Char := as.flatMap fun a => ' ' :: '@' :: a.text

def Field.text (f : Field) : List Char :=
  f.name.name.toList ++ ' ' :: (f.type.name.toList ++ (f.arity.text ++ attributesText f.attributes))

def EnumValue.text (v : EnumValue) : List Char := v.name.name.toList ++ attributesText v.attributes

def Setting.text (s : Setting) : List Char := s.key.name.toList ++ ' ' :: '=' :: ' ' :: s.value.text

def Grammar.Line.text (item : α → List Char) : Line α → List Char
  | .item a           => item a
  | .blockAttribute a => '@' :: '@' :: a.text

/-- The lines that hold the items and after them the block's attributes. -/
def Grammar.Line.of (items : List α) (attributes : List Attribute) : List (Line α) :=
  items.map .item ++ attributes.map .blockAttribute

/-- A block's lines, each indented by two spaces. -/
def linesText (lines : List (List Char)) : List Char :=
  lines.flatMap fun l => ' ' :: ' ' :: (l ++ ['\n'])

/-- The words that open blocks with fields. -/
def ModelKind.keyword : ModelKind → String
  | model => "model"
  | view  => "view"
  | type  => "type"

/-- The word that opens a block. -/
def Grammar.Keyword.word : Keyword → String
  | model kind  => kind.keyword
  | enum        => "enum"
  | config kind => kind.keyword

/-- The keyword of a block. -/
def Block.keyword : Block → Keyword
  | .model b  => .model b.kind
  | .enum _   => .enum
  | .config b => .config b.kind

def Block.lines : Block → List (List Char)
  | .model b  => (Line.of b.fields b.attributes).map (Line.text Field.text)
  | .enum b   => (Line.of b.values b.attributes).map (Line.text EnumValue.text)
  | .config b => b.settings.map Setting.text

/-- A block from its opening brace on. -/
def Block.bodyText (b : Block) : List Char := '\n' :: (linesText b.lines ++ ['}'])

def Block.text (b : Block) : List Char :=
  b.keyword.word.toList ++ ' ' :: (b.name.name.toList ++ ' ' :: '{' :: (b.bodyText ++ ['\n']))

/-- The words before a block's body, up to and with the opening brace. -/
def Block.head (b : Block) : List Char :=
  b.keyword.word.toList ++ ' ' :: (b.name.name.toList ++ [' ', '{'])

theorem Block.text_eq (b : Block) : b.text = b.head ++ (b.bodyText ++ ['\n']) := by
  simp [Block.text, Block.head]

/-- The canonical text of a schema. -/
def Document.print (d : Document) : String := String.ofList (d.blocks.flatMap Block.text)

end SchemaEnums.Schema
