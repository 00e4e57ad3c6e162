/-!
# Layout — Quote

String literals of the generated file.  The preferred quote is taken unless the text holds more
of it than of the other one; a backslash, a line feed, a carriage return and the chosen quote are
escaped.
-/

namespace SchemaEnums.Layout.Quote

/-- The quote around a text: the preferred one, unless the text has more of it. -/
def delimiter (preferSingle : Bool) (text : List Char) : Char :=
  let singles := text.count '\''
  let doubles := text.count '"'
  if preferSingle then (if doubles < singles then '"' else '\'')
  else (if singles < doubles then '\'' else '"')

/-- A character as it stands between quotes `q`. -/
def escape (q c : Char) : List Char :=
  if c = '\\' then ['\\', '\\']
  else if c = '\n' then ['\\', 'n']
  else if c = '\r' then ['\\', 'r']
  else if c = q then ['\\', c]
  else [c]

/-- An escaped character is a backslash and a letter or the character again; any other one is left
as it is. -/
theorem escape_cases (q c : Char) :
    (∃ x, escape q c = ['\\', x] ∧
      (c = '\\' ∧ x = '\\' ∨ c = '\n' ∧ x = 'n' ∨ c = '\r' ∧ x = 'r' ∨ c = q ∧ x = q)) ∨
      escape q c = [c] ∧ c ≠ '\\' ∧ c ≠ '\n' ∧ c ≠ '\r' ∧ c ≠ q := by
  by_cases h₁ : c = '\\'
  · exact .inl ⟨'\\', by rw [escape, if_pos h₁], .inl ⟨h₁, rfl⟩⟩
  by_cases h₂ : c = '\n'
  · exact .inl ⟨'n', by rw [escape, if_neg h₁, if_pos h₂], .inr (.inl ⟨h₂, rfl⟩)⟩
  by_cases h₃ : c = '\r'
  · exact .inl ⟨'r', by rw [escape, if_neg h₁, if_neg h₂, if_pos h₃], .inr (.inr (.inl ⟨h₃, rfl⟩))⟩
  by_cases h₄ : c = q
  · exact .inl ⟨c, by rw [escape, if_neg h₁, if_neg h₂, if_neg h₃, if_pos h₄],
      .inr (.inr (.inr ⟨h₄, h₄⟩))⟩
  · exact .inr ⟨by rw [escape, if_neg h₁, if_neg h₂, if_neg h₃, if_neg h₄], h₁, h₂, h₃, h₄⟩

theorem delimiter_cases (preferSingle : Bool) (text : List Char) :
    delimiter preferSingle text = '"' ∨ delimiter preferSingle text = '\'' := by
  grind [delimiter]

/-- A text between quotes. -/
def literal (preferSingle : Bool) (text : String) : String :=
  let q := delimiter preferSingle text.toList
  String.ofList (q :: text.toList.flatMap (escape q) ++ [q])

end SchemaEnums.Layout.Quote
