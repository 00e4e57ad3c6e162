import SchemaEnums.Proofs.Schema.Escapes
import SchemaEnums.Proofs.Schema.Respelled

/-!
# Schema — LineEndings

A text with a carriage return before each line feed, behind a byte order mark.  It is read as the
text itself is, to the last line and column, exactly if no line feed stands in a string literal
(`crlf_parse_iff`).  There a carriage return would come between the line feed and the backslash that
lets it stand.
-/

namespace SchemaEnums.Schema
open Text Grammar Literal

/-! ### Line feeds outside of literals -/

/-- From the zone on, no line feed stands in a string literal. -/
def feedsOutside : Zone → List Char → Bool
  | _, []     => true
  | z, x :: t => (x != '\n' || !z.isQuoted) && feedsOutside (z.next x) t

theorem feedsOutside_iff {t : List Char} : ∀ {z : Zone}, feedsOutside z t = true ↔
    ∀ before behind, t = before ++ '\n' :: behind → (z.after before).isQuoted = false := by
  induction t with
  | nil => simp [feedsOutside]
  | cons x t ih =>
      intro z
      rw [feedsOutside, Bool.and_eq_true, ih]
      constructor
      · rintro ⟨hx, ht⟩ (_ | ⟨y, before⟩) behind hsplit
        · obtain ⟨rfl, -⟩ := List.cons.inj hsplit
          simpa using hx
        · obtain ⟨rfl, rfl⟩ := List.cons.inj hsplit
          exact ht before behind rfl
      · intro h
        refine ⟨?_, fun before behind ht => h (x :: before) behind (by rw [ht, List.cons_append])⟩
        by_cases hx : x = '\n'
        · subst hx
          have hz := h [] t rfl
          simpa using hz
        · simp [hx]

/-! ### Carriage returns -/

/-- A carriage return before each line feed. -/
def crlf (t : List Char) : List Char := t.flatMap fun x => if x = '\n' then ['\r', '\n'] else [x]

theorem crlf_lineFeed (t : List Char) : crlf ('\n' :: t) = '\r' :: '\n' :: crlf t := rfl

theorem crlf_cons {x : Char} (hx : x ≠ '\n') (t : List Char) : crlf (x :: t) = x :: crlf t := by
  rw [crlf, List.flatMap_cons, if_neg hx]
  rfl

/-- The carriage returns stand at the ends of lines, if the line feeds do. -/
theorem relined_crlf {t : List Char} : ∀ {z : Zone}, Clean z t → feedsOutside z t = true →
    Relined z t (crlf t) := by
  induction t with
  | nil => exact fun hclean _ => .ending hclean .none
  | cons x t ih =>
      intro z hclean houtside
      rw [feedsOutside, Bool.and_eq_true] at houtside
      have htail := ih hclean.2 houtside.2
      by_cases hx : x = '\n'
      · subst hx
        have hz : z.isQuoted = false := by simpa using houtside.1
        rw [Zone.next_lineBreak hz rfl] at htail
        exact .line hz (.mk .none (.inr rfl)) htail
      · rw [crlf_cons hx]
        exact .keep x htail

/-- In a literal no carriage return stands before a line feed, so if the text with the carriage
returns is clean they stand at the ends of lines, where they may be left out. -/
theorem relined_of_crlf {t : List Char} : ∀ {z : Zone}, Clean z (crlf t) →
    Relined z (crlf t) t ∧ feedsOutside z t = true := by
  induction t with
  | nil => exact fun hclean => ⟨.ending hclean .none, rfl⟩
  | cons x t ih =>
      intro z hclean
      by_cases hx : x = '\n'
      · subst hx
        rw [crlf_lineFeed] at hclean ⊢
        obtain ⟨-, hfeed, hrest⟩ := hclean
        have hz : z.isQuoted = false := by
          by_contra hz
          cases z with
          | literal => exact hfeed rfl rfl
          | escape => exact hfeed rfl rfl
          | plain => exact hz rfl
          | slash => exact hz rfl
          | comment => exact hz rfl
        have hbreak : z.next '\r' = .plain := Zone.next_lineBreak hz rfl
        rw [hbreak, Zone.next_lineBreak (z := .plain) rfl rfl] at hrest
        obtain ⟨htail, houtside⟩ := ih hrest
        refine ⟨.returned (e := []) hz (.mk .none (.inl rfl)) htail, ?_⟩
        rw [feedsOutside, hz, Zone.next_lineBreak hz rfl, houtside]
        rfl
      · rw [crlf_cons hx] at hclean ⊢
        obtain ⟨htail, houtside⟩ := ih hclean.2
        refine ⟨.keep x htail, ?_⟩
        rw [feedsOutside, houtside]
        simp [hx]

/-! ### The text behind a byte order mark -/

/-- The text with a byte order mark before it and a carriage return before each of its line
feeds. -/
def markedCrlf (text : String) : String := String.ofList ('\ufeff' :: crlf text.toList)

/-- **Line endings and the byte order mark.**  Of a text without the mark, the text with the mark and
with carriage returns is read as the same schema, with the same lines and columns, if the text is
and none of its line feeds stands in a string literal, and else it is not. -/
theorem crlf_parse_iff {text : String} (hmark : text.toList.head? ≠ some '\ufeff') (d : Document) :
    Document.parse (markedCrlf text) = .ok d ↔ Document.parse text = .ok d ∧
      ∀ before behind, text.toList = before ++ '\n' :: behind → inLiteral before = false := by
  have hself : withoutMark text.toList = text.toList := withoutMark_eq_self fun x hx => by
    rw [beq_eq_false_iff_ne]
    rintro rfl
    exact hmark hx
  have hmarked : withoutMark (markedCrlf text).toList = crlf text.toList := by
    rw [markedCrlf, String.toList_ofList]
    rfl
  rw [Document.parse_eq_ok_iff, Document.parse_eq_ok_iff, Document.Spelled, Document.Spelled, hself,
    hmarked]
  constructor
  · intro h
    obtain ⟨hrelined, houtside⟩ := relined_of_crlf h.clean
    exact ⟨h.relined hrelined, feedsOutside_iff.mp houtside⟩
  · rintro ⟨h, houtside⟩
    exact h.relined (relined_crlf h.clean (feedsOutside_iff.mpr houtside))

/-- A list of arguments over two lines, a comment and an empty line. -/
theorem crlf_parse_two_lines :
    ∃ d, Document.parse "\nmodel M \x7b // b\n  a Int @c(\"\\n\",\n    1)\n\n\x7d\n" = .ok d ∧
      Document.parse (markedCrlf "\nmodel M \x7b // b\n  a Int @c(\"\\n\",\n    1)\n\n\x7d\n") = .ok d :=
  ⟨_, rfl, (crlf_parse_iff (by decide) _).mpr
    ⟨rfl, feedsOutside_iff.mp (by decide +kernel)⟩⟩

/-- Not every text is read with carriage returns as without: here a backslash stands before the line
feed. -/
theorem escaped_lineFeed_crlf_not_read :
    '\r' ∉ (oneField "Unsupported(\"\\\n\")").toList ∧
      (oneField "Unsupported(\"\\\n\")").toList.head? ≠ some '\ufeff' ∧
      (∃ d, Document.parse (oneField "Unsupported(\"\\\n\")") = .ok d) ∧
      Document.parse (markedCrlf (oneField "Unsupported(\"\\\n\")")) =
        .error ⟨⟨2, 3⟩, .notField⟩ :=
  ⟨by decide, by decide, ⟨_, rfl⟩, rfl⟩

end SchemaEnums.Schema
