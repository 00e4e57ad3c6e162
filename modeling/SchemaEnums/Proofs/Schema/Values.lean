import SchemaEnums.Proofs.Schema.Words

/-!
# Schema — Values

The characters that values begin with, and what is read as a value.

Where no value begins, none is read (`expression_refuses`).  Where one is read, one of five
alternatives has read it, and what it holds was read one bracket deeper (`expressionWithin_cases`).
-/

namespace SchemaEnums.Schema
open Text Text.Reader Grammar

variable {α : Type}

/-! ### Checked values -/

/-- The value has `P`, if there is one. -/
def Checked.Holds (P : α → Prop) (b : Checked α) : Prop := ∀ a, b = .ok a → P a

theorem Checked.all_eq_ok_iff {bs : List (Checked α)} {as : List α} :
    Checked.all bs = .ok as ↔ bs = as.map .ok := by
  induction bs generalizing as with
  | nil => cases as <;> simp [Checked.all]
  | cons b bs ih =>
      cases b with
      | error e => cases as <;> simp [Checked.all]
      | ok a =>
          cases as with
          | nil =>
              simp only [Checked.all, List.map_nil, reduceCtorEq, iff_false]
              cases Checked.all bs <;> simp [Except.map]
          | cons a' as =>
              simp only [Checked.all, List.map_cons, List.cons.injEq, Except.ok.injEq]
              rw [← ih]
              cases Checked.all bs <;> simp [Except.map]

theorem Checked.Holds.map {β : Type} {P : α → Prop} {Q : β → Prop} {f : α → β} {b : Checked α}
    (h : Holds P b) (hf : ∀ a, P a → Q (f a)) : Holds Q (b.map f) := by
  intro x hx
  cases b with
  | error e => cases hx
  | ok a =>
      cases hx
      exact hf a (h a rfl)

/-! ### Texts of values -/

namespace Grammar

/-- A character that a value may begin with. -/
def opensValue (x : Char) : Bool :=
  isNameStart x || opensNumber x || x == '"' || x == '['

theorem isNameStart_iff_toNat {x : Char} : isNameStart x = true ↔
    65 ≤ x.toNat ∧ x.toNat ≤ 90 ∨ 97 ≤ x.toNat ∧ x.toNat ≤ 122 ∨ x.toNat = 95 := by
  simp [isNameStart, isAlpha_iff_toNat, ← Char.toNat_inj, or_assoc]

theorem opensNumber_iff_toNat {x : Char} : opensNumber x = true ↔
    48 ≤ x.toNat ∧ x.toNat ≤ 57 ∨ x.toNat = 45 := by
  simp [opensNumber, Char.isDigit_iff_toNat, ← Char.toNat_inj]

theorem opensGap_iff_toNat {x : Char} : opensGap x = true ↔
    x.toNat = 32 ∨ x.toNat = 9 ∨ x.toNat = 47 ∨ x.toNat = 10 ∨ x.toNat = 13 := by
  simp [opensGap, isSpace, Literal.isLineBreak, ← Char.toNat_inj, or_assoc]

theorem opensGap_of_opensValue {x : Char} (h : opensValue x = true) : opensGap x = false := by
  by_contra hx
  simp only [Bool.not_eq_false, opensGap_iff_toNat] at hx
  simp only [opensValue, Bool.or_eq_true, isNameStart_iff_toNat, opensNumber_iff_toNat,
    beq_iff_eq, ← Char.toNat_inj, Char.reduceToNat] at h
  omega

theorem opensSkip_of_opensValue {x : Char} (h : opensValue x = true) : opensSkip x = false := by
  have := opensGap_of_opensValue h
  simp only [opensGap, Bool.or_eq_false_iff] at this
  simp only [opensSkip, this, Bool.or_self]

theorem opensSkip_of_isNameStart {x : Char} (h : isNameStart x = true) : opensSkip x = false :=
  opensSkip_of_opensValue (by simp only [opensValue, h, Bool.true_or])

theorem opensNumber_of_isNameStart {x : Char} (h : isNameStart x = true) :
    opensNumber x = false := by
  by_contra hx
  simp only [Bool.not_eq_false, opensNumber_iff_toNat] at hx
  rw [isNameStart_iff_toNat] at h
  omega

theorem isNameStart_of_opensNumber {x : Char} (h : opensNumber x = true) :
    isNameStart x = false := by
  by_contra hx
  rw [opensNumber_of_isNameStart (by simpa using hx)] at h
  cases h

/-- A character that opens a name or a number is no other character. -/
theorem ne_of_opens {x y : Char} (h : isNameStart x = true ∨ opensNumber x = true)
    (hy : isNameStart y = false) (hy' : opensNumber y = false) : (x == y) = false := by
  rw [beq_eq_false_iff_ne]
  rintro rfl
  simp [hy, hy'] at h

end Grammar

theorem IsName.opens {n : List Char} (h : IsName n) :
    ∃ x rest, n = x :: rest ∧ isNameStart x = true := by
  obtain ⟨x, xs, rfl, hx, -⟩ := h
  exact ⟨x, xs, rfl, hx⟩

theorem IsPath.opens {p : List Char} (h : IsPath p) :
    ∃ x rest, p = x :: rest ∧ isNameStart x = true := by
  obtain ⟨n, ns, rfl, hns⟩ := h
  obtain ⟨x, xs, rfl, hx⟩ := (hns n (by simp)).opens
  exact ⟨x, _, by rw [intercalate_cons, List.cons_append], hx⟩

theorem IsNumber.opens {n : List Char} (h : IsNumber n) :
    ∃ x rest, n = x :: rest ∧ opensNumber x = true := by
  obtain ⟨s, w, f, rfl, hs, ⟨hwne, hw⟩, -⟩ := h
  cases w with
  | nil => exact absurd rfl hwne
  | cons x w =>
      rcases hs with rfl | rfl
      · exact ⟨x, w ++ f, rfl, by rw [opensNumber, hw x (by simp), Bool.true_or]⟩
      · exact ⟨'-', x :: w ++ f, rfl, rfl⟩

/-- A text that opens with a value's character is not empty and no blank begins it. -/
theorem clear_of_opens {t : List Char} (h : ∃ x rest, t = x :: rest ∧ opensValue x = true) :
    t ≠ [] ∧ Stops opensGap t := by
  obtain ⟨x, rest, rfl, hx⟩ := h
  exact ⟨List.cons_ne_nil x rest, by simpa using opensGap_of_opensValue hx⟩

/-! ### Arguments -/

theorem argumentName_refuses {rest : List Char} (h : Stops isNameStart rest) :
    Refuses argumentName rest := by
  intro c hc
  simp only [argumentName, identifier_refuses h c hc, Option.bind_eq_bind, Option.bind_none]

theorem argument_refuses {value : Reader (Checked Expression)} {rest : List Char}
    (h : Stops isNameStart rest) (hv : Refuses value rest) : Refuses (argument value) rest := by
  intro c hc
  simp only [argument, argumentName_refuses h c hc, hv c hc, Option.bind_eq_bind, Option.bind_none]

/-! ### Values -/

section Alternatives

variable {value : Reader (Checked Expression)} {rest : List Char}

theorem bracketed_refuses {opening closing : Char} {item : Reader α}
    (h : Stops (· == opening) rest) : Refuses (bracketed opening closing item) rest := by
  intro c hc
  simp only [bracketed, listed, Cursor.eat?_char_eq_none (x := opening) (by rwa [hc]),
    Option.bind_eq_bind, Option.bind_none]

theorem array_refuses (h : Stops (· == '[') rest) : Refuses (array value) rest := by
  intro c hc
  simp only [array, bracketed_refuses h c hc, Option.bind_eq_bind, Option.bind_none]

theorem call_refuses (h : Stops isNameStart rest) : Refuses (call value) rest := by
  intro c hc
  simp only [call, path_refuses h c hc, Option.bind_eq_bind, Option.bind_none]

end Alternatives

theorem expressionWithin_refuses {rest : List Char} (h : Stops opensValue rest) :
    ∀ bound, Refuses (expressionWithin bound) rest
  | [],         _, _  => rfl
  | _ :: bound, c, hc => by
      have hname : Stops isNameStart rest :=
        h.mono fun x hx => by simp only [opensValue, hx, Bool.true_or]
      have h₁ : call (expressionWithin bound) c = none := call_refuses hname c hc
      have h₂ : array (expressionWithin bound) c = none :=
        array_refuses (h.mono fun x hx => by simp only [opensValue, hx, Bool.or_true]) c hc
      have h₃ := number_refuses
        (h.mono fun x hx => by simp only [opensValue, hx, Bool.or_true, Bool.true_or]) c hc
      have h₄ := string_refuses
        (h.mono fun x hx => by simp only [opensValue, hx, Bool.or_true, Bool.true_or]) c hc
      simp only [expressionWithin, h₁, h₂, h₃, h₄, path_refuses hname c hc, Option.map_none]
      rfl

theorem expression_refuses {rest : List Char} (h : Stops opensValue rest) :
    Refuses expression rest := fun c hc => expressionWithin_refuses h c.rest c hc

/-! ### What is read as a value -/

theorem eq_some_of_orElse {o o' : Option α} {a : α} (h : (o <|> o') = some a) :
    o = some a ∨ o' = some a := by
  cases o with
  | none => exact .inr h
  | some b => exact .inl h

/-- How a value is read, if `value` reads what stands inside brackets. -/
inductive ExpressionRead (value : Reader (Checked Expression)) (c c' : Cursor) :
    Checked Expression → Prop where
  | call {p : String} {c₁ : Cursor} {as : List (Checked Argument)} (hpath : path c = some (p, c₁))
      (has : bracketed '(' ')' (argument value) (skip c₁) = some (as, c')) :
      ExpressionRead value c c' ((Checked.all as).map (.call p))
  | array {es : List (Checked Expression)} (hes : bracketed '[' ']' value c = some (es, c')) :
      ExpressionRead value c c' ((Checked.all es).map .array)
  | number {n : String} (hn : number c = some (n, c')) : ExpressionRead value c c' (.ok (.number n))
  | string {s : Checked String} (hs : string c = some (s, c')) :
      ExpressionRead value c c' (s.map .string)
  | constant {p : String} (hpath : path c = some (p, c')) :
      ExpressionRead value c c' (.ok (.constant p))

theorem expressionWithin_cases {x : Char} {bound : List Char} {c c' : Cursor}
    {b : Checked Expression} (h : expressionWithin (x :: bound) c = some (b, c')) :
    ExpressionRead (expressionWithin bound) c c' b := by
  rcases eq_some_of_orElse h with h | h
  · simp only [call, Option.bind_eq_bind, Option.bind_eq_some_iff, Option.some.injEq,
      Prod.mk.injEq] at h
    obtain ⟨⟨p, c₁⟩, hpath, ⟨as, _⟩, has, rfl, rfl⟩ := h
    exact .call hpath has
  rcases eq_some_of_orElse h with h | h
  · simp only [array, Option.bind_eq_bind, Option.bind_eq_some_iff, Option.some.injEq,
      Prod.mk.injEq] at h
    obtain ⟨⟨es, _⟩, hes, rfl, rfl⟩ := h
    exact .array hes
  rcases eq_some_of_orElse h with h | h
  · obtain ⟨⟨n, _⟩, hn, h⟩ := Option.map_eq_some_iff.mp h
    cases h
    exact .number hn
  rcases eq_some_of_orElse h with h | h
  · obtain ⟨⟨s, _⟩, hs, h⟩ := Option.map_eq_some_iff.mp h
    cases h
    exact .string hs
  · obtain ⟨⟨p, _⟩, hpath, h⟩ := Option.map_eq_some_iff.mp h
    cases h
    exact .constant hpath

/-! ### Attributes -/

/-- A character that an attribute may go on with. -/
def Grammar.extendsAttribute (x : Char) : Bool := extendsPath x || x == '('

end SchemaEnums.Schema
