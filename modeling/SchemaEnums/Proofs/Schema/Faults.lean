import SchemaEnums.Proofs.Schema.Exact

/-!
# Schema — Faults

Which part of a schema reports which fault.

What is wrong inside a value is wrong with one of its escapes (`Checked.FailsAtEscape`).  A block
reports that of its lines, a line that is none of its kind, or that its brace is missing
(`body_error`), and only outside of blocks is a line stray or a keyword unknown.
-/

namespace SchemaEnums.Schema
open Text Text.Reader Grammar Literal

variable {α β : Type} {c c' : Cursor} {e : SyntaxError}

/-! ### Kinds of fault -/

/-- An escape in a string is wrong. -/
def Fault.isEscape : Fault → Bool
  | unknownEscape _      => true
  | invalidUnicodeEscape => true
  | _                    => false

/-- What stands outside of blocks is wrong. -/
def Fault.isTop : Fault → Bool
  | strayLine        => true
  | unknownKeyword _ => true
  | _                => false

theorem Fault.isTop_of_isEscape {f : Fault} (h : f.isEscape = true) : f.isTop = false := by
  cases f <;> first | rfl | cases h

/-- There is a value, or else an escape is wrong. -/
def Checked.FailsAtEscape (b : Checked α) : Prop := ∀ e, b = .error e → e.fault.isEscape = true

theorem Checked.failsAtEscape_ok (a : α) : Checked.FailsAtEscape (.ok a) := fun _ h => (nomatch h)

theorem Checked.FailsAtEscape.map {b : Checked α} (h : b.FailsAtEscape) (f : α → β) :
    Checked.FailsAtEscape (b.map f) := fun e he => h e (map_eq_error_iff.mp he)

theorem Checked.FailsAtEscape.all {bs : List (Checked α)} (h : ∀ b ∈ bs, b.FailsAtEscape) :
    Checked.FailsAtEscape (Checked.all bs) := by
  induction bs with
  | nil => exact Checked.failsAtEscape_ok []
  | cons b bs ih =>
      obtain ⟨hb, hbs⟩ := List.forall_mem_cons.mp h
      cases b with
      | error e => exact fun e' he => hb e' (by rw [← Except.error.inj he])
      | ok a => exact (ih hbs).map _

/-! ### Values -/

theorem decode_error {body : List Char} {f : Fault} (h : decode body = .error f) :
    f.isEscape = true := by
  fun_induction decode body with
  | case1 | case7 => cases h
  | case2 _ _ _ _ _ _ _ ih | case5 _ _ _ _ _ _ ih | case8 _ _ _ _ _ _ ih =>
      exact ih (map_eq_error_iff.mp h)
  | case3 | case4 | case6 =>
      cases h
      rfl

theorem string_fails : Yields string Checked.FailsAtEscape := by
  intro c b c' h
  simp only [string, Option.bind_eq_bind, Option.bind_eq_some_iff, Option.some.injEq,
    Prod.mk.injEq] at h
  obtain ⟨⟨⟨body, position⟩, _⟩, -, rfl, -⟩ := h
  intro e he
  cases hdecode : decode body with
  | ok s => rw [hdecode] at he; cases he
  | error f =>
      rw [hdecode] at he
      cases he
      exact decode_error hdecode

theorem argument_fails {value : Reader (Checked Expression)}
    (h : Yields value Checked.FailsAtEscape) : Yields (argument value) Checked.FailsAtEscape := by
  intro c b c' hc
  simp only [argument, Option.bind_eq_bind, Option.bind_eq_some_iff, Option.some.injEq,
    Prod.mk.injEq] at hc
  obtain ⟨⟨v, _⟩, hv, rfl, -⟩ := hc
  exact (h hv).map _

theorem bracketed_fails {opening closing : Char} {item : Reader (Checked α)}
    (h : Yields item Checked.FailsAtEscape) : Yields (bracketed opening closing item)
      fun bs => Checked.FailsAtEscape (Checked.all bs) :=
  fun _ _ _ hc => .all (listed_yields h hc)

theorem expressionWithin_fails :
    ∀ bound, Yields (expressionWithin bound) Checked.FailsAtEscape
  | [],         _, _, _, h => (nomatch h)
  | _ :: bound, c, b, c', h => by
      have ih := expressionWithin_fails bound
      cases expressionWithin_cases h with
      | call _ has => exact (bracketed_fails (argument_fails ih) has).map _
      | array hes => exact (bracketed_fails ih hes).map _
      | number _ => exact Checked.failsAtEscape_ok _
      | string hs => exact (string_fails hs).map _
      | constant _ => exact Checked.failsAtEscape_ok _

theorem expression_fails : Yields expression Checked.FailsAtEscape :=
  fun c _ _ h => expressionWithin_fails c.rest h

/-! ### Lines -/

theorem attributeAfter_fails {marker : List Char} :
    Yields (attributeAfter marker) Checked.FailsAtEscape := by
  intro c b c' h
  simp only [attributeAfter, Option.bind_eq_bind, Option.bind_eq_some_iff] at h
  obtain ⟨c₁, -, ⟨name, c₂⟩, -, h⟩ := h
  cases ha : arguments c₂ with
  | none =>
      simp only [ha, Option.some.injEq, Prod.mk.injEq] at h
      obtain ⟨rfl, -⟩ := h
      exact Checked.failsAtEscape_ok _
  | some ac =>
      simp only [ha, Option.some.injEq, Prod.mk.injEq] at h
      obtain ⟨rfl, -⟩ := h
      simp only [arguments, Option.bind_eq_bind, Option.bind_eq_some_iff, Option.some.injEq] at ha
      obtain ⟨⟨bs, _⟩, hbs, rfl⟩ := ha
      exact (bracketed_fails (argument_fails expression_fails) hbs).map _

theorem attributes_fails (c : Cursor) : (attributes c).1.FailsAtEscape :=
  .all (many_yields attributeAfter_fails c)

theorem field_fails : Yields field Checked.FailsAtEscape := by
  intro c b c' h
  simp only [field, Option.bind_eq_bind, Option.bind_eq_some_iff, Option.some.injEq,
    Prod.mk.injEq] at h
  obtain ⟨_, -, _, -, rfl, -⟩ := h
  exact (attributes_fails _).map _

theorem enumValue_fails : Yields enumValue Checked.FailsAtEscape := by
  intro c b c' h
  simp only [enumValue, Option.bind_eq_bind, Option.bind_eq_some_iff, Option.some.injEq,
    Prod.mk.injEq] at h
  obtain ⟨_, -, rfl, -⟩ := h
  exact (attributes_fails _).map _

theorem setting_fails : Yields setting Checked.FailsAtEscape := by
  intro c b c' h
  simp only [setting, Option.bind_eq_bind, Option.bind_eq_some_iff, Option.some.injEq,
    Prod.mk.injEq] at h
  obtain ⟨_, -, _, -, ⟨v, _⟩, hv, rfl, -⟩ := h
  exact (expression_fails hv).map _

theorem line_fails {item : Reader (Checked α)} (h : Yields item Checked.FailsAtEscape) :
    Yields (line item) Checked.FailsAtEscape := by
  intro c b c' hc
  rcases eq_some_of_orElse hc with hc | hc
  · obtain ⟨⟨a, _⟩, ha, hc⟩ := Option.map_eq_some_iff.mp hc
    obtain ⟨rfl, -⟩ := Prod.mk.inj hc
    exact (h ha).map _
  · obtain ⟨⟨a, _⟩, ha, hc⟩ := Option.map_eq_some_iff.mp hc
    obtain ⟨rfl, -⟩ := Prod.mk.inj hc
    exact (attributeAfter_fails ha).map _

theorem wholeLine_fails {read : Reader (Checked α)} (h : Yields read Checked.FailsAtEscape) :
    Yields (wholeLine read) Checked.FailsAtEscape := by
  intro c b c' hc
  simp only [wholeLine, Option.bind_eq_bind, Option.bind_eq_some_iff, Option.some.injEq,
    Prod.mk.injEq] at hc
  obtain ⟨⟨a, _⟩, ha, _, -, rfl, -⟩ := hc
  exact h ha

/-! ### Blocks -/

section Lines

variable {read : Reader (Checked α)} {fault : Fault}

theorem linesWithin_error (h : Yields read Checked.FailsAtEscape) :
    ∀ {bound : List Char} {c : Cursor}, linesWithin read fault bound c = .error e →
      e.fault.isEscape = true ∨ e.fault = fault
  | [],         _, he => (nomatch he)
  | _ :: bound, c, he => by
      have hstep : linesStep read fault (linesWithin read fault bound) c = .error e := he
      rw [linesStep] at hstep
      cases hwhole : wholeLine read (skip c) with
      | some r =>
          obtain ⟨b, c'⟩ := r
          simp only [hwhole] at hstep
          rcases bind_eq_error_iff.mp hstep with hb | ⟨a, -, hmore⟩
          · exact .inl (wholeLine_fails h hwhole e hb)
          · exact linesWithin_error h (eq_error_of_bind (fun _ => ⟨_, rfl⟩) hmore)
      | none =>
          cases hbreak : lineBreak (skip c) with
          | some r =>
              simp only [hwhole, hbreak] at hstep
              exact linesWithin_error h hstep
          | none =>
              simp only [hwhole, hbreak] at hstep
              split at hstep
              case isTrue => cases hstep
              case isFalse =>
                cases hstep
                exact .inr rfl

theorem lines_error (h : Yields read Checked.FailsAtEscape) (he : lines read fault c = .error e) :
    e.fault.isEscape = true ∨ e.fault = fault ∨ e.fault = .missingBrace := by
  rcases bind_eq_error_iff.mp he with hlines | ⟨⟨as, d⟩, -, hend⟩
  · exact (linesWithin_error h hlines).imp_right .inl
  · cases hbrace : d.eat? ['}'] with
    | none =>
        simp only [hbrace] at hend
        cases hend
        exact .inr (.inr rfl)
    | some c' =>
        simp only [hbrace] at hend
        cases hend

end Lines

/-- What a line is that is none of a block's. -/
def Grammar.Keyword.fault : Keyword → Fault
  | .model _     => .notField
  | .enum        => .notEnumValue
  | .config kind => .notSetting kind

/-- **What is reported inside a block.** -/
theorem body_error {k : Keyword} {n : Identifier} (he : body k n c = .error e) :
    e.fault.isEscape = true ∨ e.fault = k.fault ∨ e.fault = .missingBrace := by
  cases k with
  | model kind =>
      have hls := eq_error_of_bind (fun _ => ⟨_, rfl⟩) he
      exact lines_error (line_fails field_fails) hls
  | enum =>
      have hls := eq_error_of_bind (fun _ => ⟨_, rfl⟩) he
      exact lines_error (line_fails enumValue_fails) hls
  | config kind =>
      have hss := eq_error_of_bind (fun _ => ⟨_, rfl⟩) he
      exact lines_error setting_fails hss

theorem body_error_isTop {k : Keyword} {n : Identifier} (he : body k n c = .error e) :
    e.fault.isTop = false := by
  rcases body_error he with h | h | h
  · exact Fault.isTop_of_isEscape h
  · rw [h]
    cases k <;> rfl
  · rw [h]
    rfl

theorem openingFault_isTop (c : Cursor) : (openingFault c).isTop = true := by
  rw [openingFault]
  split
  case h_1 => split <;> rfl
  case h_2 => rfl

/-- A word that opens no block is no keyword. -/
theorem ofWord?_of_openingFault {word : String} (hhead : blockHead c = none)
    (h : openingFault c = .unknownKeyword word) : Keyword.ofWord? word = none := by
  rw [openingFault] at h
  split at h
  case h_1 w n c₁ hopening =>
    split at h
    case isTrue =>
      cases h
      rw [blockHead, hopening, Option.bind_some] at hhead
      exact Option.map_eq_none_iff.mp hhead
    case isFalse => cases h
  case h_2 => cases h

theorem blocksWithin_unknownKeyword {p : Position} {word : String} :
    ∀ {bound : List Char} {c : Cursor},
      blocksWithin bound c = .error ⟨p, .unknownKeyword word⟩ → Keyword.ofWord? word = none
  | [],         _, he => (nomatch he)
  | _ :: bound, c, he => by
      have hstep : blocksStep (blocksWithin bound) c = .error ⟨p, .unknownKeyword word⟩ := he
      cases hc : (skip c).rest with
      | nil =>
          rw [blocksStep_nil hc] at hstep
          cases hstep
      | cons x rest =>
          cases hbreak : lineBreak (skip c) with
          | some r =>
              rw [blocksStep_lineBreak hc hbreak] at hstep
              exact blocksWithin_unknownKeyword hstep
          | none =>
              rw [blocksStep_block hc hbreak] at hstep
              cases hhead : blockHead (skip c) with
              | none =>
                  simp only [hhead] at hstep
                  injection hstep with hstep
                  exact ofWord?_of_openingFault hhead (SyntaxError.mk.inj hstep).2
              | some r =>
                  simp only [hhead] at hstep
                  rcases bind_eq_error_iff.mp hstep with hbody | ⟨_, -, hmore⟩
                  · cases body_error_isTop hbody
                  · exact blocksWithin_unknownKeyword (eq_error_of_bind (fun _ => ⟨_, rfl⟩) hmore)

/-- **A keyword that is reported as unknown is none.** -/
theorem Document.parse_unknownKeyword {text word : String} {p : Position}
    (h : Document.parse text = .error ⟨p, .unknownKeyword word⟩) : Keyword.ofWord? word = none :=
  blocksWithin_unknownKeyword (map_eq_error_iff.mp h)

end SchemaEnums.Schema
