import SchemaEnums.Proofs.Schema.Escapes
import SchemaEnums.Proofs.Schema.Respelled

/-!
# Schema — Comments

A comment at the end of a line.  Where a line of a schema ends outside of string literals, a comment
leaves the schema as it was, and every name at its place; in a literal that goes on behind the line
feed it does not (`comment_parse_iff`).
-/

namespace SchemaEnums.Schema
open Text Grammar Literal

/-- The text is over, or a line feed comes next, or one behind a carriage return. -/
inductive OpensLineEnd : List Char → Prop where
  | finished : OpensLineEnd []
  | lineFeed (t : List Char) : OpensLineEnd ('\n' :: t)
  | returned (t : List Char) : OpensLineEnd ('\r' :: '\n' :: t)

theorem OpensLineEnd.head?_ne {t : List Char} (h : OpensLineEnd t) : t.head? ≠ some '\ufeff' := by
  cases h <;> simp

/-- Outside of literals a comment may stand before the end of a line. -/
theorem OpensLineEnd.relined {t note : List Char} (h : OpensLineEnd t) {z : Zone}
    (hz : z.isQuoted = false) (hclean : Clean z t) (hnote : IsNote note) :
    Relined z t (note ++ t) := by
  cases h with
  | finished =>
      rw [List.append_nil]
      exact .ending hz hnote
  | lineFeed t =>
      have htail := hclean.2
      rw [Zone.next_lineBreak hz rfl] at htail
      simpa using Relined.line hz (.mk hnote (.inl rfl)) (.refl htail)
  | returned t =>
      obtain ⟨-, -, htail⟩ := hclean
      have hbreak : z.next '\r' = .plain := Zone.next_lineBreak hz rfl
      rw [hbreak, Zone.next_lineBreak (z := .plain) rfl rfl] at htail
      simpa using Relined.returned hz (.mk hnote (.inr rfl)) (.refl htail)

/-- In a literal no line ends but behind a backslash, and the text does not end there. -/
theorem OpensLineEnd.not_clean {t : List Char} (h : OpensLineEnd t) : ¬ Clean .literal t := by
  intro hclean
  cases h with
  | finished => cases hclean
  | lineFeed t => exact hclean.1 rfl rfl
  | returned t => exact hclean.1 rfl rfl

/-- The mark before a text does not depend on how its last line ends. -/
theorem exists_withoutMark_append (t : List Char) : ∃ t', inLiteral t' = inLiteral t ∧
    ∀ u, u.head? ≠ some '\ufeff' → withoutMark (t ++ u) = t' ++ u := by
  cases t with
  | nil => exact ⟨[], rfl, fun u hu => withoutMark_eq_self fun x hx => by
      rw [beq_eq_false_iff_ne]
      rintro rfl
      exact hu hx⟩
  | cons x t =>
      by_cases hx : x = '\ufeff'
      · subst hx
        exact ⟨t, rfl, fun _ _ => rfl⟩
      · exact ⟨x :: t, rfl, fun _ _ => withoutMark_eq_self (.cons (by simpa using hx))⟩

/-- **Comments at the ends of lines.**  With a comment at the end of one of its lines, or of its last
one, a text that is read is read as the same schema, with the same lines and columns, whatever the
comment says, exactly if the line does not end in a string literal. -/
theorem comment_parse_iff {before behind : String} {d : Document}
    (hbehind : OpensLineEnd behind.toList) (h : Document.parse (before ++ behind) = .ok d) :
    (∀ comment : String, (∀ x ∈ comment.toList, x ≠ '\r' ∧ x ≠ '\n') →
      Document.parse (before ++ "//" ++ comment ++ behind) = .ok d) ↔
        inLiteral before.toList = false := by
  obtain ⟨t, hliteral, hmark⟩ := exists_withoutMark_append before.toList
  have hself : withoutMark (before ++ behind).toList = t ++ behind.toList := by
    rw [String.toList_append]
    exact hmark _ hbehind.head?_ne
  have hcomment : ∀ comment : String, withoutMark (before ++ "//" ++ comment ++ behind).toList =
      t ++ (('/' :: '/' :: comment.toList) ++ behind.toList) := by
    intro comment
    have htext : (before ++ "//" ++ comment ++ behind).toList =
        before.toList ++ (('/' :: '/' :: comment.toList) ++ behind.toList) := by simp
    rw [htext]
    exact hmark _ (by simp)
  rw [Document.parse_eq_ok_iff, Document.Spelled, hself] at h
  simp only [Document.parse_eq_ok_iff, Document.Spelled, hcomment]
  rw [← hliteral, inLiteral]
  constructor
  · intro hall
    by_contra hquoted
    rw [Bool.not_eq_false] at hquoted
    -- behind two slashes in a literal no line ends
    obtain ⟨-, -, hclean⟩ := (hall "" (by simp)).clean.behind
    rw [Zone.isQuoted_next_slash hquoted] at hclean
    exact hbehind.not_clean hclean
  · intro hz comment hchars
    have hnote : IsNote ('/' :: '/' :: comment.toList) := .comment fun x hx => by
      obtain ⟨hr, hn⟩ := hchars x hx
      simp [isLineBreak, hr, hn]
    exact h.relined (.behind (hbehind.relined hz h.clean.behind hnote))

/-- A comment inside a list of arguments. -/
theorem comment_parse_arguments :
    ∃ d, Document.parse ("model M \x7b\n  a Int @b(1," ++ "\n 2)\n\x7d\n") = .ok d ∧
      Document.parse ("model M \x7b\n  a Int @b(1," ++ "//" ++ "\" )" ++ "\n 2)\n\x7d\n") = .ok d := by
  have hbehind : OpensLineEnd "\n 2)\n\x7d\n".toList := .lineFeed " 2)\n\x7d\n".toList
  exact ⟨_, rfl, (comment_parse_iff hbehind rfl).mpr (by decide) "\" )" (by simp)⟩

/-- Not every line can have a comment at its end: this one ends in a literal. -/
theorem comment_in_literal_not_read :
    (∃ d, Document.parse ("model M \x7b\n  a Unsupported(\"\\" ++ "\n\")\n\x7d\n") = .ok d) ∧
      Document.parse ("model M \x7b\n  a Unsupported(\"\\" ++ "//" ++ "" ++ "\n\")\n\x7d\n") =
        .error ⟨⟨2, 3⟩, .notField⟩ :=
  ⟨⟨_, rfl⟩, rfl⟩

end SchemaEnums.Schema
