import SchemaEnums.Proofs.Schema.Tokens

/-!
# Schema — Zones

Whether a place of a text is in a string literal, in a comment or outside of both, which is told from
the characters before it alone.

In a schema a line break stands in a literal behind a backslash only, and no literal is open at the
end (`Clean`).  A piece of a schema that has its line breaks so, and none outside literals either,
leads from one zone to another (`Quiet`): blanks, words, marks and literals are such pieces.
-/

namespace SchemaEnums.Schema
open Text Grammar Literal

/-! ### Zones -/

/-- Where a place of a text is.  Behind a slash a second one opens a comment, and behind a backslash
a quote does not end the literal. -/
inductive Zone where
  | plain
  | slash
  | comment
  | literal
  | escape
deriving Repr, DecidableEq

namespace Zone

/-- The zone behind a character that stands outside. -/
def outside (x : Char) : Zone :=
  if x == '"' then .literal else if x == '/' then .slash else .plain

/-- The zone behind a character. -/
def next : Zone → Char → Zone
  | plain,   x => outside x
  | slash,   x => if x == '/' then .comment else outside x
  | comment, x => if isLineBreak x then .plain else .comment
  | literal, x => if x == '"' then .plain else if x == '\\' then .escape else .literal
  | escape,  _ => .literal

/-- The zone behind a text. -/
def after (z : Zone) (t : List Char) : Zone := t.foldl next z

@[simp] theorem after_nil (z : Zone) : z.after [] = z := rfl

@[simp] theorem after_cons (z : Zone) (x : Char) (t : List Char) :
    z.after (x :: t) = (z.next x).after t := rfl

/-- The place is in a literal. -/
def isQuoted : Zone → Bool
  | literal => true
  | escape  => true
  | _       => false

/-- Outside of literals a line break ends whatever there was. -/
theorem next_lineBreak {z : Zone} (hz : z.isQuoted = false) {x : Char}
    (hx : isLineBreak x = true) : z.next x = .plain := by
  simp only [isLineBreak, Bool.or_eq_true, beq_iff_eq] at hx
  cases z with
  | plain => rcases hx with rfl | rfl <;> rfl
  | slash => rcases hx with rfl | rfl <;> rfl
  | comment => rcases hx with rfl | rfl <;> rfl
  | literal => cases hz
  | escape => cases hz

/-- A slash in a literal leaves the place in it. -/
theorem isQuoted_next_slash {z : Zone} (hz : z.isQuoted = true) : z.next '/' = .literal := by
  cases z with
  | literal => rfl
  | escape => rfl
  | plain => cases hz
  | slash => cases hz
  | comment => cases hz

end Zone

/-- The end of the text is in a string literal that has not ended. -/
def inLiteral (text : List Char) : Bool := (Zone.plain.after text).isQuoted

example : inLiteral "a \"b\\\"".toList = true ∧ inLiteral "a \"b\" // \"c".toList = false := by
  decide

/-! ### Clean texts -/

/-- From the zone on, line breaks stand in literals behind backslashes only, and every literal
ends. -/
def Clean : Zone → List Char → Prop
  | z, []     => z.isQuoted = false
  | z, x :: t => (isLineBreak x = true → z ≠ .literal) ∧ Clean (z.next x) t

theorem Clean.behind {s t : List Char} : ∀ {z : Zone}, Clean z (s ++ t) → Clean (z.after s) t := by
  induction s with
  | nil => exact fun h => h
  | cons x s ih => exact fun h => ih h.2

/-! ### Quiet pieces -/

/-- The piece leads from the one zone to the other, and has no line breaks but behind backslashes in
literals. -/
inductive Quiet : Zone → List Char → Zone → Prop where
  | nil (z : Zone) : Quiet z [] z
  | cons {z z' : Zone} {x : Char} {t : List Char} (hx : isLineBreak x = true → z = .escape)
      (h : Quiet (z.next x) t z') : Quiet z (x :: t) z'

section Quiet

variable {z z' z'' : Zone} {s t body : List Char} {x : Char}

theorem Quiet.append (h : Quiet z s z') (h' : Quiet z' t z'') : Quiet z (s ++ t) z'' := by
  induction h with
  | nil z => exact h'
  | cons hx _ ih => exact .cons hx (ih h')

theorem Quiet.clean (h : Quiet z s z') (ht : Clean z' t) : Clean z (s ++ t) := by
  induction h with
  | nil z => exact ht
  | cons hx _ ih => exact ⟨fun hbreak hz => (nomatch (hx hbreak).symm.trans hz), ih ht⟩

/-- A character outside that opens nothing. -/
def isPlain (x : Char) : Bool := !(x == '"' || x == '/' || isLineBreak x)

theorem quiet_of_isPlain (h : ∀ x ∈ t, isPlain x = true) : Quiet .plain t .plain := by
  induction t with
  | nil => exact .nil _
  | cons x t ih =>
      obtain ⟨hx, ht⟩ := List.forall_mem_cons.mp h
      simp only [isPlain, Bool.not_eq_true', Bool.or_eq_false_iff] at hx
      have hnext : Zone.plain.next x = .plain := by simp [Zone.next, Zone.outside, hx.1]
      exact .cons (fun hbreak => nomatch hbreak.symm.trans hx.2) (hnext.symm ▸ ih ht)

theorem IsSpaces.quiet (h : IsSpaces s) : Quiet .plain s .plain :=
  quiet_of_isPlain fun x hx => by
    have hspace := h x hx
    simp only [isSpace, Bool.or_eq_true, beq_iff_eq] at hspace
    rcases hspace with rfl | rfl <;> rfl

theorem IsWord.quiet (h : IsWord t) : Quiet .plain t .plain :=
  quiet_of_isPlain fun x hx => by
    by_contra hplain
    simp only [isPlain, Bool.not_eq_true', Bool.not_eq_false, isLineBreak, Bool.or_eq_true,
      beq_iff_eq] at hplain
    rcases hplain with (rfl | rfl) | rfl | rfl <;> exact absurd (h.2 _ hx) (by decide)

theorem quiet_mark (hx : isMark x = true) : Quiet .plain [x] .plain :=
  quiet_of_isPlain fun y hy => by
    obtain rfl := List.mem_singleton.mp hy
    simp only [isMark, opensGap, Bool.not_eq_true', Bool.or_eq_false_iff] at hx
    simp [isPlain, hx]

theorem IsBody.quiet (h : IsBody body) : Quiet .literal body .literal := by
  induction h with
  | nil => exact .nil _
  | escape x _ ih => exact .cons (fun hbreak => nomatch hbreak) (.cons (fun _ => rfl) ih)
  | @char x t hx _ ih =>
      simp only [Bool.or_eq_false_iff] at hx
      have hnext : Zone.literal.next x = .literal := by simp [Zone.next, hx.1]
      exact .cons (fun hbreak => nomatch hbreak.symm.trans hx.2) (hnext.symm ▸ ih)

theorem IsBody.quiet_literal (h : IsBody body) : Quiet .plain ('"' :: (body ++ ['"'])) .plain :=
  .cons (fun hbreak => nomatch hbreak)
    (h.quiet.append (.cons (fun hbreak => nomatch hbreak) (.nil _)))

theorem quiet_comment (h : ∀ x ∈ t, isLineBreak x = false) :
    Quiet .plain ('/' :: '/' :: t) .comment := by
  have hinside : Quiet .comment t .comment := by
    induction t with
    | nil => exact .nil _
    | cons x t ih =>
        obtain ⟨hx, ht⟩ := List.forall_mem_cons.mp h
        have hnext : Zone.comment.next x = .comment := by simp [Zone.next, hx]
        exact .cons (fun hbreak => nomatch hbreak.symm.trans hx) (hnext.symm ▸ ih ht)
  exact .cons (fun hbreak => nomatch hbreak) (.cons (fun hbreak => nomatch hbreak) hinside)

/-- Behind a blank a comment may be open, but no literal. -/
theorem IsBlank.quiet (h : IsBlank s) : ∃ z, z.isQuoted = false ∧ Quiet .plain s z := by
  cases h with
  | spaces h => exact ⟨.plain, rfl, h.quiet⟩
  | comment h ht => exact ⟨.comment, rfl, h.quiet.append (quiet_comment ht)⟩

/-- What a clean text is with a blank and a line break before it. -/
theorem IsBlank.clean_line (h : IsBlank s) (hx : isLineBreak x = true) (ht : Clean .plain t) :
    Clean .plain (s ++ x :: t) := by
  obtain ⟨z, hz, hs⟩ := h.quiet
  refine hs.clean ⟨fun _ hliteral => ?_, ?_⟩
  · rw [hliteral] at hz
    cases hz
  · rw [Zone.next_lineBreak hz hx]
    exact ht

end Quiet

end SchemaEnums.Schema
