import SchemaEnums.Proofs.Schema.Down

/-!
# Schema — Concatenation

One schema behind another.  What stands before a line break is read whatever follows it, and what
stands behind a line feed is read as at the beginning of a text; so two texts with a line feed
between them are read as the two of them are (`Document.parse_append`), whether the second is a
schema or has a fault.
-/

namespace SchemaEnums.Text

theorem Position.afterAll_lineFeed (t : List Char) : ∀ p : Position,
    p.afterAll (t ++ ['\n']) = ⟨p.line + t.count '\n' + 1, 1⟩ := by
  induction t with
  | nil => exact fun p => rfl
  | cons x t ih =>
      intro p
      rw [List.cons_append, afterAll_cons, ih]
      by_cases hx : x = '\n'
      · subst hx
        rw [List.count_cons_self, after, if_pos rfl, Nat.add_right_comm p.line,
          Nat.add_assoc p.line]
      · rw [List.count_cons_of_ne hx, after, if_neg hx]

end SchemaEnums.Text

namespace SchemaEnums.Schema
open Text

theorem withoutMark_append (t u : List Char) :
    withoutMark (t ++ '\n' :: u) = withoutMark t ++ '\n' :: u := by
  cases t with
  | nil => exact withoutMark_eq_self (.cons rfl)
  | cons x t =>
      by_cases hx : x = '\ufeff'
      · subst hx
        rfl
      · rw [withoutMark_eq_self (.cons (by simpa using hx)), List.cons_append,
          withoutMark_eq_self (.cons (by simpa using hx))]

/-- The mark is no line feed. -/
theorem count_withoutMark (t : List Char) : (withoutMark t).count '\n' = t.count '\n' := by
  cases t with
  | nil => rfl
  | cons x t =>
      by_cases hx : x = '\ufeff'
      · subst hx
        rw [List.count_cons_of_ne (by decide)]
        rfl
      · rw [withoutMark_eq_self (.cons (by simpa using hx))]

/-- What follows a schema and a line feed is read as at the beginning of a text, further down. -/
theorem Document.parse_append_eq {a b : String} {A : Document} (ha : Document.parse a = .ok A)
    (hb : b.toList.head? ≠ some '\ufeff') : Document.parse (a ++ "\n" ++ b) =
      (Document.parse b).down (a.toList.count '\n' + 1) fun B =>
        ⟨A.blocks ++ B.blocks.map (Block.down (a.toList.count '\n' + 1))⟩ := by
  have htext : (a ++ "\n" ++ b).toList = a.toList ++ '\n' :: b.toList := by simp
  have hmark : withoutMark b.toList = b.toList := withoutMark_eq_self fun x hx => by
    rw [beq_eq_false_iff_ne]
    rintro rfl
    exact hb hx
  have hblocks : SpelledBlocks .start A.blocks (withoutMark a.toList) :=
    Document.parse_eq_ok_iff.mp ha
  obtain ⟨c₁, hp₁, hc₁⟩ := Cursor.exists_passes
    (c := Cursor.ofText (withoutMark a.toList ++ '\n' :: b.toList)) rfl
  obtain ⟨c₂, hp₂, hc₂⟩ := Cursor.exists_passes (c := c₁) (t := ['\n']) hc₁
  -- the second text begins a line, as the beginning of a text does
  have hstart : c₂ = (Cursor.ofText b.toList).down (a.toList.count '\n' + 1) := by
    have hposition : c₂.position = Position.start.down (a.toList.count '\n' + 1) := by
      rw [(hp₁.trans hp₂).position, Cursor.ofText, Position.afterAll_lineFeed, count_withoutMark]
      exact congrArg (Position.mk · 1) (Nat.add_assoc _ _ _)
    calc c₂ = ⟨c₂.position, c₂.rest⟩ := rfl
      _ = _ := by rw [hposition, hc₂]; rfl
  rw [Document.parse_eq, Document.parse_eq, htext, withoutMark_append, hmark,
    blocksFrom_append hblocks rfl hp₁ (by rw [hc₁]; exact atBreak_cons rfl _),
    blocksFrom_lineBreak rfl hp₂, hstart, blocksFrom_down]
  cases blocksFrom (Cursor.ofText b.toList) <;> rfl

/-- **Two schemas with a line feed between them are one.**  Its blocks are those of the first and
then those of the second, as many lines further down as the first text and the line feed have line
feeds; and if the second text is no schema, its fault is the fault of the whole, further down by as
much. -/
theorem Document.parse_append (a b : String) (A : Document) (ha : Document.parse a = .ok A)
    (hb : b.toList.head? ≠ some '\ufeff') :
    (∀ B, Document.parse b = .ok B → Document.parse (a ++ "\n" ++ b) =
      .ok ⟨A.blocks ++ B.blocks.map (Block.down (a.toList.count '\n' + 1))⟩) ∧
    ∀ e, Document.parse b = .error e → Document.parse (a ++ "\n" ++ b) =
      .error ⟨⟨e.position.line + (a.toList.count '\n' + 1), e.position.column⟩, e.fault⟩ := by
  constructor
  · intro B hB
    rw [Document.parse_append_eq ha hb, hB]
    rfl
  · intro e he
    rw [Document.parse_append_eq ha hb, he]
    rfl

/-- A first text that ends in a carriage return, before a schema and before a stray line. -/
theorem Document.parse_append_enums :
    Document.parse ("enum A \x7b\n\x7d\r" ++ "\n" ++ "enum B \x7b\x7d") =
        .ok ⟨[.enum ⟨⟨"A", ⟨1, 6⟩⟩, [], []⟩, .enum ⟨⟨"B", ⟨3, 6⟩⟩, [], []⟩]⟩ ∧
      Document.parse ("enum A \x7b\n\x7d\r" ++ "\n" ++ "  ?") = .error ⟨⟨3, 3⟩, .strayLine⟩ :=
  ⟨(Document.parse_append "enum A \x7b\n\x7d\r" "enum B \x7b\x7d"
      ⟨[.enum ⟨⟨"A", ⟨1, 6⟩⟩, [], []⟩]⟩ rfl (by decide)).1 ⟨[.enum ⟨⟨"B", ⟨1, 6⟩⟩, [], []⟩]⟩ rfl,
    (Document.parse_append "enum A \x7b\n\x7d\r" "  ?" ⟨[.enum ⟨⟨"A", ⟨1, 6⟩⟩, [], []⟩]⟩ rfl
      (by decide)).2 ⟨⟨1, 3⟩, .strayLine⟩ rfl⟩

end SchemaEnums.Schema
