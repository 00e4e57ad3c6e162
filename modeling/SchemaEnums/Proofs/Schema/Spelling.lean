import SchemaEnums.Proofs.Schema.Gaps
import SchemaEnums.Proofs.Schema.Values

/-!
# Schema — Spelling

Which texts spell a schema, said without a reader.  Every name carries the place where it stands, so
what is spelled from a place on is told from there: `Field.Spelled p f t` says that the text `t`,
standing at `p`, spells the field `f`.

A line ends before its line break, and a block's lines before the closing brace
(`SpelledLines`); behind the last block there may be a comment that no line break ends
(`SpelledBlocks`).
-/

namespace SchemaEnums.Schema
open Text Text.Reader Grammar Literal

variable {α : Type}

/-! ### Words -/

/-- A name that stands at a place. -/
structure Identifier.At (i : Identifier) (p : Position) : Prop where
  name     : i.WellFormed
  position : i.position = p

/-- The body of a string literal: behind a backslash any character, else no quote, backslash or
line break. -/
inductive IsBody : List Char → Prop where
  | nil : IsBody []
  | escape {t : List Char} (x : Char) (h : IsBody t) : IsBody ('\\' :: x :: t)
  | char {x : Char} {t : List Char} (hx : (x == '"' || x == '\\' || isLineBreak x) = false)
      (h : IsBody t) : IsBody (x :: t)

/-! ### Values -/

/-- The name of an argument as it stands before the value. -/
inductive Labelled : Option String → List Char → Prop where
  | none : Labelled none []
  | some {n : String} {s s' : List Char} (hn : IsName n.toList) (hs : IsSpaces s)
      (hs' : IsSpaces s') : Labelled (some n) (n.toList ++ (s ++ ':' :: s'))

/-- An argument with the texts of its name and of its value. -/
structure ArgumentText where
  argument : Argument
  label    : List Char
  value    : List Char

def ArgumentText.text (i : ArgumentText) : List Char := i.label ++ i.value

/-- The text spells the value. -/
inductive Expression.Spelled : Expression → List Char → Prop where
  | string {value : String} {body : List Char} (hbody : IsBody body)
      (hdecode : decode body = .ok value.toList) :
      Spelled (.string value) ('"' :: (body ++ ['"']))
  | number {n : String} (h : IsNumber n.toList) : Spelled (.number n) n.toList
  | constant {path : String} (h : IsPath path.toList) : Spelled (.constant path) path.toList
  | call {path : String} {s t : List Char} {items : List ArgumentText}
      (hpath : IsPath path.toList) (hs : IsSpaces s)
      (labels : ∀ i ∈ items, Labelled i.argument.name i.label)
      (values : ∀ i ∈ items, Spelled i.argument.value i.value)
      (list : Listed '(' ')' (items.map ArgumentText.text) t) :
      Spelled (.call path (items.map ArgumentText.argument)) (path.toList ++ (s ++ t))
  | array {t : List Char} {items : List (Expression × List Char)}
      (values : ∀ i ∈ items, Spelled i.1 i.2) (list : Listed '[' ']' (items.map Prod.snd) t) :
      Spelled (.array (items.map Prod.fst)) t

/-- The texts spell the argument's name and its value. -/
structure ArgumentText.Spelled (i : ArgumentText) : Prop where
  label : Labelled i.argument.name i.label
  value : i.argument.value.Spelled i.value

/-- The text spells the attribute, behind its marker. -/
inductive Attribute.Spelled : Attribute → List Char → Prop where
  | bare {name : String} (hname : IsPath name.toList) : Spelled ⟨name, []⟩ name.toList
  | listed {name : String} {t : List Char} {items : List ArgumentText}
      (hname : IsPath name.toList) (hitems : ∀ i ∈ items, i.Spelled)
      (list : Listed '(' ')' (items.map ArgumentText.text) t) :
      Spelled ⟨name, items.map ArgumentText.argument⟩ (name.toList ++ t)

/-! ### Lines -/

/-- The attributes of a field or value. -/
inductive SpelledAttributes : List Attribute → List Char → Prop where
  | nil : SpelledAttributes [] []
  | cons {a : Attribute} {as : List Attribute} {s t u : List Char} (hs : IsSpaces s)
      (ha : a.Spelled t) (h : SpelledAttributes as u) :
      SpelledAttributes (a :: as) (s ++ '@' :: (t ++ u))

/-- The mark of an arity. -/
inductive Arity.Spelled : Arity → List Char → Prop where
  | required : Spelled .required []
  | optional {s : List Char} (hs : IsSpaces s) : Spelled .optional (s ++ ['?'])
  | list {s s' : List Char} (hs : IsSpaces s) (hs' : IsSpaces s') :
      Spelled .list (s ++ '[' :: (s' ++ [']']))

/-- The type of a field.  The string behind `Unsupported` leaves no trace. -/
inductive SpelledType (p : Position) : Identifier → List Char → Prop where
  | name {i : Identifier} (h : i.At p) : SpelledType p i i.name.toList
  | unsupported {body : List Char} (hbody : IsBody body) :
      SpelledType p ⟨"Unsupported", p⟩
        ("Unsupported".toList ++ '(' :: ('"' :: (body ++ ['"']) ++ [')']))

inductive Field.Spelled (p : Position) : Field → List Char → Prop where
  | mk {name type : Identifier} {arity : Arity} {as : List Attribute} {s t u v : List Char}
      (hname : name.At p) (hs : IsSpaces s) (hne : s ≠ [])
      (htype : SpelledType (p.afterAll (name.name.toList ++ s)) type t) (harity : arity.Spelled u)
      (has : SpelledAttributes as v) :
      Spelled p ⟨name, type, arity, as⟩ (name.name.toList ++ (s ++ (t ++ (u ++ v))))

inductive EnumValue.Spelled (p : Position) : EnumValue → List Char → Prop where
  | mk {name : Identifier} {as : List Attribute} {t : List Char} (hname : name.At p)
      (has : SpelledAttributes as t) : Spelled p ⟨name, as⟩ (name.name.toList ++ t)

inductive Setting.Spelled (p : Position) : Setting → List Char → Prop where
  | mk {key : Identifier} {value : Expression} {s s' t : List Char} (hkey : key.At p)
      (hs : IsSpaces s) (hs' : IsSpaces s') (hvalue : value.Spelled t) :
      Spelled p ⟨key, value⟩ (key.name.toList ++ (s ++ '=' :: (s' ++ t)))

/-- An item of its own, or an attribute of the block. -/
inductive Grammar.Line.Spelled (S : Position → α → List Char → Prop) (p : Position) :
    Line α → List Char → Prop where
  | item {a : α} {t : List Char} (h : S p a t) : Spelled S p (.item a) t
  | blockAttribute {a : Attribute} {t : List Char} (h : a.Spelled t) :
      Spelled S p (.blockAttribute a) ('@' :: '@' :: t)

/-! ### Blocks -/

/-- The lines of a block, up to its closing brace. -/
inductive SpelledLines (S : Position → α → List Char → Prop) :
    Position → List α → List Char → Prop where
  | close {p : Position} {s : List Char} (hs : IsSpaces s) : SpelledLines S p [] s
  | last {p : Position} {a : α} {s s' t : List Char} (hs : IsSpaces s)
      (ha : S (p.afterAll s) a t) (hs' : IsSpaces s') : SpelledLines S p [a] (s ++ (t ++ s'))
  | blank {p : Position} {as : List α} {s u : List Char} {x : Char} (hs : IsBlank s)
      (hx : isLineBreak x = true) (h : SpelledLines S (p.afterAll (s ++ [x])) as u) :
      SpelledLines S p as (s ++ x :: u)
  | item {p : Position} {a : α} {as : List α} {s s' t u : List Char} {x : Char} (hs : IsSpaces s)
      (ha : S (p.afterAll s) a t) (hs' : IsBlank s') (hx : isLineBreak x = true)
      (h : SpelledLines S (p.afterAll (s ++ (t ++ (s' ++ [x])))) as u) :
      SpelledLines S p (a :: as) (s ++ (t ++ (s' ++ x :: u)))

/-- What stands between the braces of a block. -/
inductive Block.SpelledBody (p : Position) : Block → List Char → Prop where
  | model {kind : ModelKind} {name : Identifier} {ls : List (Line Field)} {u : List Char}
      (h : SpelledLines (Line.Spelled Field.Spelled) p ls u) :
      SpelledBody p (.model ⟨kind, name, Line.items ls, Line.attributes ls⟩) u
  | enum {name : Identifier} {ls : List (Line EnumValue)} {u : List Char}
      (h : SpelledLines (Line.Spelled EnumValue.Spelled) p ls u) :
      SpelledBody p (.enum ⟨name, Line.items ls, Line.attributes ls⟩) u
  | config {kind : ConfigKind} {name : Identifier} {ss : List Setting} {u : List Char}
      (h : SpelledLines Setting.Spelled p ss u) : SpelledBody p (.config ⟨kind, name, ss⟩) u

/-- The text of a block up to and with its opening brace. -/
def headText (word : String) (s : List Char) (name : String) (s' : List Char) : List Char :=
  word.toList ++ (s ++ (name.toList ++ (s' ++ ['{'])))

inductive Block.Spelled (p : Position) (b : Block) : List Char → Prop where
  | mk {s s' u : List Char} (hs : IsSpaces s) (hne : s ≠ [])
      (hname : b.name.At (p.afterAll (b.keyword.word.toList ++ s))) (hs' : IsSpaces s')
      (hbody : b.SpelledBody (p.afterAll (headText b.keyword.word s b.name.name s')) u) :
      Spelled p b (headText b.keyword.word s b.name.name s' ++ (u ++ ['}']))

/-- The blocks of a schema, up to the end of the text. -/
inductive SpelledBlocks : Position → List Block → List Char → Prop where
  | nil {p : Position} {s : List Char} (hs : IsBlank s) : SpelledBlocks p [] s
  | line {p : Position} {bs : List Block} {s u : List Char} {x : Char} (hs : IsBlank s)
      (hx : isLineBreak x = true) (h : SpelledBlocks (p.afterAll (s ++ [x])) bs u) :
      SpelledBlocks p bs (s ++ x :: u)
  | block {p : Position} {b : Block} {bs : List Block} {s t u : List Char} (hs : IsSpaces s)
      (hb : b.Spelled (p.afterAll s) t) (h : SpelledBlocks (p.afterAll (s ++ t)) bs u) :
      SpelledBlocks p (b :: bs) (s ++ (t ++ u))

/-- The text spells the schema. -/
def Document.Spelled (d : Document) (t : List Char) : Prop :=
  SpelledBlocks .start d.blocks (withoutMark t)

/-! ### First characters -/

theorem Listed.opens {opening closing : Char} {ts : List (List Char)} {t : List Char}
    (h : Listed opening closing ts t) : ∃ u, t = opening :: u := by
  cases h with
  | empty hg => exact ⟨_, rfl⟩
  | items hg h => exact ⟨_, rfl⟩

theorem Expression.Spelled.opens {e : Expression} {t : List Char} (h : e.Spelled t) :
    ∃ x u, t = x :: u ∧ opensValue x = true := by
  cases h with
  | string hbody hdecode => exact ⟨'"', _, rfl, rfl⟩
  | number h =>
      obtain ⟨x, u, hx, h⟩ := h.opens
      exact ⟨x, u, hx, by simp [opensValue, h]⟩
  | constant h =>
      obtain ⟨x, u, hx, h⟩ := h.opens
      exact ⟨x, u, hx, by simp [opensValue, h]⟩
  | call h hs labels values list =>
      obtain ⟨x, u, hx, h⟩ := h.opens
      exact ⟨x, _, by rw [hx, List.cons_append], by simp [opensValue, h]⟩
  | array values list =>
      obtain ⟨u, rfl⟩ := list.opens
      exact ⟨'[', u, rfl, rfl⟩

theorem SpelledType.opens {p : Position} {i : Identifier} {t : List Char}
    (h : SpelledType p i t) : ∃ x u, t = x :: u ∧ isNameStart x = true := by
  cases h with
  | name h => exact h.name.opens
  | unsupported hbody => exact ⟨'U', _, rfl, rfl⟩

theorem ArgumentText.Spelled.opens {i : ArgumentText} (h : i.Spelled) :
    ∃ x u, i.text = x :: u ∧ opensValue x = true := by
  obtain ⟨⟨name, value⟩, label, t⟩ := i
  obtain ⟨hlabel, hvalue⟩ := h
  cases hlabel with
  | none => exact hvalue.opens
  | some hn hs hs' =>
      obtain ⟨x, u, hx, hopens⟩ := hn.opens
      exact ⟨x, _, by rw [ArgumentText.text, hx]; rfl, by simp [opensValue, hopens]⟩

end SchemaEnums.Schema
