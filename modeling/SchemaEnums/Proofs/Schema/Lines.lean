import SchemaEnums.Proofs.Schema.Values

/-!
# Schema — Lines

What is no line of a block: where no name begins there is no field, value or setting
(`field_refuses`), and a name without a parenthesis behind it is no unsupported type
(`unsupported_refuses`).

The lines of a block are told apart into its items and its own attributes; `Line.All` is what a
property of the items says of the lines.
-/

namespace SchemaEnums.Schema
open Text Text.Reader Grammar

variable {α β : Type}

/-! ### Fields, values and settings -/

theorem attributesText_stops {p : Char → Bool} (as : List Attribute) {rest : List Char}
    (hp : p ' ' = false) (hr : Stops p rest) : Stops p (attributesText as ++ rest) := by
  cases as with
  | nil => exact hr
  | cons a as => simpa [attributesText] using hp

/-- A name is no unsupported type, unless a parenthesis follows it. -/
theorem unsupported_refuses {n rest : List Char} (h : IsName n) (hr : Stops extendsAttribute rest) :
    Refuses unsupported (n ++ rest) := by
  intro c hc
  by_contra hne
  obtain ⟨u, hu⟩ := Option.ne_none_iff_exists'.mp hne
  simp only [unsupported, Option.bind_eq_bind, Option.bind_eq_some_iff] at hu
  obtain ⟨c₁, h₁, c₂, h₂, -⟩ := hu
  obtain ⟨⟨r, hr₁⟩, rfl⟩ := Cursor.eat?_eq_some_iff.mp h₁
  obtain ⟨⟨r', hr₂⟩, -⟩ := Cursor.eat?_eq_some_iff.mp h₂
  rw [Cursor.rest_advance_length hr₁] at hr₂
  -- the word that stands here ends before the parenthesis, so it is `n`
  have hname : Stops isNameChar rest := hr.mono fun x hx => by
    simp only [extendsAttribute, extendsPath, hx, Bool.true_or]
  have hn : n = "Unsupported".toList := by
    rw [← hname.takeWhile h.all, ← hc, hr₁]
    exact Stops.takeWhile (show IsName "Unsupported".toList by decide).all
      (by rw [hr₂]; exact .cons rfl)
  rw [hr₁, hr₂, hn] at hc
  have hrest := List.append_cancel_left hc
  rw [← hrest, List.cons_append, stops_cons] at hr
  exact absurd hr (by decide)

theorem field_refuses {rest : List Char} (h : Stops isNameStart rest) : Refuses field rest :=
  fun c hc => by
    simp only [field, identifier_refuses h c hc, Option.bind_eq_bind, Option.bind_none]

theorem enumValue_refuses {rest : List Char} (h : Stops isNameStart rest) :
    Refuses enumValue rest := fun c hc => by
  simp only [enumValue, identifier_refuses h c hc, Option.bind_eq_bind, Option.bind_none]

theorem setting_refuses {rest : List Char} (h : Stops isNameStart rest) : Refuses setting rest :=
  fun c hc => by
    simp only [setting, identifier_refuses h c hc, Option.bind_eq_bind, Option.bind_none]

/-! ### Lines -/

/-- The line with its item changed by `f`. -/
def Grammar.Line.map (f : α → β) : Line α → Line β
  | .item a           => .item (f a)
  | .blockAttribute a => .blockAttribute a

theorem Grammar.Line.items_map (f : α → β) (ls : List (Line α)) :
    Line.items (ls.map (Line.map f)) = (Line.items ls).map f := by
  induction ls with
  | nil => rfl
  | cons l ls ih =>
      simp only [Line.items] at ih
      cases l <;> simp [Line.items, Line.map, ih]

theorem Grammar.Line.attributes_map (f : α → β) (ls : List (Line α)) :
    Line.attributes (ls.map (Line.map f)) = Line.attributes ls := by
  induction ls with
  | nil => rfl
  | cons l ls ih =>
      simp only [Line.attributes] at ih
      cases l <;> simp [Line.attributes, Line.map, ih]

theorem Grammar.Line.items_of (is : List α) (as : List Attribute) :
    Line.items (Line.of is as) = is := by
  simp [Line.items, Line.of, List.filterMap_map]

theorem Grammar.Line.attributes_of (is : List α) (as : List Attribute) :
    Line.attributes (Line.of is as) = as := by
  simp [Line.attributes, Line.of, List.filterMap_map]

/-- Every item of the line has `P`, and a block attribute is well-formed. -/
def Grammar.Line.All (P : α → Prop) : Line α → Prop
  | .item a           => P a
  | .blockAttribute a => a.WellFormed

theorem Grammar.Line.All.items {P : α → Prop} {ls : List (Line α)} (h : ∀ l ∈ ls, l.All P) :
    ∀ i ∈ Line.items ls, P i := by
  intro i hi
  obtain ⟨l, hl, hli⟩ := List.mem_filterMap.mp hi
  cases l with
  | item a => cases hli; exact h _ hl
  | blockAttribute a => cases hli

theorem Grammar.Line.All.attributes {P : α → Prop} {ls : List (Line α)} (h : ∀ l ∈ ls, l.All P) :
    ∀ a ∈ Line.attributes ls, a.WellFormed := by
  intro a ha
  obtain ⟨l, hl, hla⟩ := List.mem_filterMap.mp ha
  cases l with
  | item i => cases hla
  | blockAttribute a => cases hla; exact h _ hl

theorem line_refuses {item : Reader (Checked α)} {x : Char} {rest : List Char}
    (hx : (x == '@') = false) (h : Refuses item (x :: rest)) : Refuses (line item) (x :: rest) := by
  intro c hc
  have h₁ : c.eat? ['@', '@'] = none := by
    by_contra hne
    obtain ⟨c', hc'⟩ := Option.ne_none_iff_exists'.mp hne
    obtain ⟨⟨r, hr⟩, -⟩ := Cursor.eat?_eq_some_iff.mp hc'
    rw [hc, List.cons_append] at hr
    simp [(List.cons.inj hr).1] at hx
  simp only [line, h c hc, attributeAfter, h₁, Option.bind_eq_bind, Option.bind_none,
    Option.map_none]
  rfl

end SchemaEnums.Schema
