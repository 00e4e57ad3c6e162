import SchemaEnums.Proofs.Schema.Print

/-!
# Schema — Words

Names, paths and numbers are read as they are written, and what is read as one is one.

A word is read to its end, so each statement asks that what follows cannot continue it: a name must
not be followed by a character of names, a path not by a dot either, a number not by a digit or a
point.  A string that `Quote.escape` has escaped ends at its closing quote, whatever follows
(`bodyLength_escape`), and `decode` undoes the escapes (`decode_escape`).
-/

namespace SchemaEnums.Schema.Grammar
open Text Literal Text.Reader

/-! ### Blanks -/

/-- A character that `skip` may move past, or the comment sign's first. -/
def opensSkip (x : Char) : Bool := isSpace x || x == '/'

/-- A character that `gap` may move past, or the comment sign's first. -/
def opensGap (x : Char) : Bool := isSpace x || x == '/' || isLineBreak x

theorem skip_skips (blank : List Char) (h : ∀ x ∈ blank, isSpace x = true) :
    Skips skip blank opensSkip := by
  intro c rest hc hr
  have hs : Stops isSpace rest := hr.mono fun x hx => by simp [opensSkip, hx]
  have h₁ := Cursor.skipWhile_eq hc h hs
  have h₂ := Cursor.rest_advance_length hc
  simp only [skip, h₁]
  cases rest with
  | nil => simp only [h₂]
  | cons x rest =>
      have hx : x ≠ '/' := by
        rintro rfl
        simp [opensSkip] at hr
      split
      case h_1 h₃ => rw [h₂] at h₃; exact absurd (List.cons.inj h₃).1 hx
      case h_2 => rfl

theorem skip_eq_self {c : Cursor} (h : Stops opensSkip c.rest) : skip c = c :=
  (skip_skips [] (by simp)).stay h

theorem lineBreak_refuses {rest : List Char} (h : Stops isLineBreak rest) :
    Refuses lineBreak rest := by
  intro c hc
  cases rest with
  | nil => simp only [lineBreak, hc]
  | cons x rest =>
      have hx : isLineBreak x = false := by simpa using h
      have hr : x ≠ '\r' := by
        rintro rfl
        exact absurd hx (by decide)
      simp only [lineBreak, hc]
      split
      case h_1 h₁ => exact absurd (List.cons.inj h₁).1 hr
      case h_2 h₁ => cases h₁; rw [if_neg (by simp [hx])]
      case h_3 => rfl

theorem lineBreak_of_lineFeed {rest : List Char} {c : Cursor} (hc : c.rest = ['\n'] ++ rest) :
    lineBreak c = some ((), c.advance ['\n'].length) := by
  have h : c.rest = '\n' :: rest := hc
  simp only [lineBreak, h]
  rfl

theorem gap_skips (blank : List Char) (h : ∀ x ∈ blank, isSpace x = true) :
    Skips gap blank opensGap := by
  intro c rest hc hr
  have hs : Stops opensSkip rest := hr.mono fun x hx => by
    simp only [opensSkip, opensGap] at hx ⊢
    simp [hx]
  have h₁ := skip_skips blank h c rest hc hs
  have h₂ : lineBreak (skip c) = none := by
    rw [h₁]
    exact lineBreak_refuses (hr.mono fun x hx => by simp [opensGap, hx]) _
      (Cursor.rest_advance_length hc)
  have h₃ : (many skip lineBreak c).2 = c := by
    rw [many]
    cases c.rest with
    | nil => rfl
    | cons _ bound => simp only [manyWithin, h₂]
  rw [gap, h₃, h₁]

/-! ### Names -/

theorem identifier_takes {n rest : List Char} (h : IsName n) (hr : Stops isNameChar rest) :
    Takes identifier n rest (fun i => i.name.toList = n) := by
  intro c hc
  have hrun := Cursor.run_eq hc h.all hr
  obtain ⟨x, xs, rfl, hx, -⟩ := h
  refine ⟨⟨String.ofList (x :: xs), c.position⟩, ?_, String.toList_ofList⟩
  simp only [identifier, hc, List.cons_append, hx, if_true, hrun]

theorem identifier_refuses {rest : List Char} (h : Stops isNameStart rest) :
    Refuses identifier rest := by
  intro c hc
  cases rest with
  | nil => simp only [identifier, hc]
  | cons x rest =>
      have hx : isNameStart x = false := by simpa using h
      simp only [identifier, hc, hx, Bool.false_eq_true, if_false]

theorem identifier_yields : Yields identifier Identifier.WellFormed := by
  intro c i c' h
  cases hc : c.rest with
  | nil => simp [identifier, hc] at h
  | cons x rest =>
      simp only [identifier, hc] at h
      split at h
      case isFalse => cases h
      case isTrue hx =>
        obtain ⟨rfl, -⟩ := Prod.mk.inj (Option.some.inj h)
        refine ⟨x, rest.takeWhile isNameChar, ?_, hx, fun y hy => ?_⟩
        · simp [Cursor.run, hc, isNameChar_of_isNameStart hx]
        · exact List.all_eq_true.mp List.all_takeWhile y hy

/-! ### Paths -/

/-- A character that a path may go on with. -/
def extendsPath (x : Char) : Bool := isNameChar x || x == '.'

theorem dotted_takes {n rest : List Char} (h : IsName n) (hr : Stops isNameChar rest) :
    Takes (fun c => c.eat? ['.'] >>= identifier) ('.' :: n) rest (fun i => i.name.toList = n) := by
  intro c hc
  obtain ⟨i, hi, hin⟩ := identifier_takes h hr (c.advance 1) (by simp [hc])
  refine ⟨i, ?_, hin⟩
  show (c.eat? ['.'] >>= identifier) = _
  rw [Cursor.eat?_char hc]
  show identifier (c.advance 1) = _
  rw [hi, Cursor.advance_advance, List.length_cons, Nat.add_comm]

theorem dotted_refuses {rest : List Char} (h : Stops (· == '.') rest) :
    Refuses (fun c => c.eat? ['.'] >>= identifier) rest := by
  intro c hc
  show (c.eat? ['.'] >>= identifier) = none
  rw [Cursor.eat?_char_eq_none (by rwa [hc])]
  rfl

theorem path_takes {p rest : List Char} (h : IsPath p) (hr : Stops extendsPath rest) :
    Takes path p rest (fun s => s.toList = p) := by
  obtain ⟨n, ns, rfl, hns⟩ := h
  have hname : Stops isNameChar rest := hr.mono fun x hx => by simp [extendsPath, hx]
  have hdot : Stops (· == '.') rest := hr.mono fun x hx => by
    rw [extendsPath, hx, Bool.or_true]
  have hdot' : isNameChar '.' = false := by decide
  intro c hc
  rw [intercalate_cons, List.append_assoc] at hc
  -- the first name ends at a dot or where the path ends
  obtain ⟨i, hi, hin⟩ := identifier_takes (hns n (by simp)) (by
    cases ns with
    | nil => simpa using hname
    | cons m ns => simp [hdot']) c hc
  obtain ⟨is, his, hF⟩ := many_takes id (fun c => c.eat? ['.'] >>= identifier)
    (fun m => '.' :: m) hname (dotted_refuses hdot) (by simp)
    (fun m hm after hafter => ⟨by simp [hdot'], dotted_takes (hns m (by simp [hm])) hafter⟩)
    (Cursor.rest_advance_length hc)
  have hmap := map_eq_map_of_forall₂ (g := id) hF
  refine ⟨".".intercalate (i.name :: is.map (·.name)), ?_, ?_⟩
  · simp only [Option.bind_eq_bind] at his
    simp only [path, Option.bind_eq_bind, hi, Option.bind_some, his, Cursor.advance_advance,
      intercalate_cons, List.length_append, List.cons_append, List.nil_append]
  · show (".".intercalate (i.name :: is.map (·.name))).toList = _
    rw [String.toList_intercalate, List.map_cons, hin, List.map_map]
    show ['.'].intercalate (n :: is.map fun i => i.name.toList) = _
    rw [hmap, List.map_id]

theorem path_refuses {rest : List Char} (h : Stops isNameStart rest) : Refuses path rest := by
  intro c hc
  simp only [path, identifier_refuses h c hc, Option.bind_eq_bind, Option.bind_none]

theorem path_yields : Yields path (fun s => IsPath s.toList) := by
  intro c s c' h
  simp only [path, Option.bind_eq_bind, Option.bind_eq_some_iff, Option.some.injEq,
    Prod.mk.injEq] at h
  obtain ⟨⟨i, c₁⟩, hi, rfl, -⟩ := h
  refine ⟨i.name.toList, _, String.toList_intercalate, ?_⟩
  simp only [List.mem_cons, List.mem_map, List.map_map]
  rintro m (rfl | ⟨j, hj, rfl⟩)
  · exact identifier_yields hi
  · refine many_yields (P := Identifier.WellFormed) (fun c i c' hr => ?_) _ j hj
    obtain ⟨_, -, hr⟩ := Option.bind_eq_some_iff.mp hr
    exact identifier_yields hr

/-! ### Numbers -/

/-- A character that a number may go on with. -/
def extendsNumber (x : Char) : Bool := x.isDigit || x == '.'

theorem sign_eq {s rest : List Char} (h : s = [] ∨ s = ['-']) (hr : Stops (· == '-') rest)
    {c : Cursor} (hc : c.rest = s ++ rest) : sign c = (s, c.advance s.length) := by
  rcases h with rfl | rfl
  · simp only [sign, Cursor.eat?_char_eq_none (x := '-') (by rwa [hc]), List.length_nil,
      Cursor.advance_zero]
  · simp only [sign, Cursor.eat?_eq hc]

theorem fraction_eq {f rest : List Char} (h : f = [] ∨ ∃ ds, f = '.' :: ds ∧ IsDigits ds)
    (hr : Stops extendsNumber rest) {c : Cursor} (hc : c.rest = f ++ rest) :
    fraction c = (f, c.advance f.length) := by
  rcases h with rfl | ⟨ds, rfl, hne, hds⟩
  · have hdot : ∀ x tail, c.rest ≠ '.' :: x :: tail := by
      rintro x tail h
      rw [List.nil_append] at hc
      rw [← hc, h] at hr
      exact absurd hr (by simp [extendsNumber])
    rw [List.length_nil, Cursor.advance_zero, fraction]
    split
    case h_1 x tail h => exact absurd h (hdot x tail)
    case h_2 => rfl
  · cases ds with
    | nil => exact absurd rfl hne
    | cons x ds =>
        have hx : x.isDigit = true := hds x (by simp)
        have hrun := Cursor.run_eq (c := c.advance 1) (s := x :: ds) (p := Char.isDigit)
          (show (c.advance 1).rest = x :: ds ++ rest by simp [hc]) hds
          (hr.mono fun y hy => by rw [extendsNumber, hy, Bool.true_or])
        simp only [fraction, hc, List.cons_append, hx, if_true, hrun, Cursor.advance_advance,
          List.length_cons]
        congr 2
        omega

theorem isDigit_ne_sign {x : Char} (h : x.isDigit = true) : (x == '-') = false := by
  by_contra hx
  simp only [Bool.not_eq_false, beq_iff_eq] at hx
  subst hx
  exact absurd h (by decide)

theorem number_takes {n rest : List Char} (h : IsNumber n) (hr : Stops extendsNumber rest) :
    Takes number n rest (fun s => s.toList = n) := by
  obtain ⟨s, w, f, rfl, hs, ⟨hwne, hw⟩, hf⟩ := h
  intro c hc
  have hc₁ : c.rest = s ++ (w ++ (f ++ rest)) := by simpa using hc
  have hsign := sign_eq hs (by
    cases w with
    | nil => exact absurd rfl hwne
    | cons x w => simpa using isDigit_ne_sign (hw x (by simp))) hc₁
  have hwhole := Cursor.run_eq (Cursor.rest_advance_length hc₁) hw (by
    rcases hf with rfl | ⟨ds, rfl, -⟩
    · exact hr.mono fun y hy => by rw [extendsNumber, hy, Bool.true_or]
    · simp)
  have hfraction := fraction_eq hf hr (Cursor.rest_advance_length (Cursor.rest_advance_length hc₁))
  have hne : w.isEmpty = false := by simpa using hwne
  refine ⟨String.ofList (s ++ w ++ f), ?_, String.toList_ofList⟩
  simp only [number, hsign, hwhole, hfraction, hne, Bool.false_eq_true, if_false]
  rw [Cursor.advance_advance, Cursor.advance_advance, List.length_append, List.length_append,
    Nat.add_assoc]

/-- A character that a number may begin with. -/
def opensNumber (x : Char) : Bool := x.isDigit || x == '-'

theorem number_refuses {rest : List Char} (h : Stops opensNumber rest) : Refuses number rest := by
  intro c hc
  have hsign : sign c = ([], c) := by
    have := sign_eq (s := []) (.inl rfl)
      (h.mono fun x hx => by rw [opensNumber, hx, Bool.or_true]) (c := c) (by simpa using hc)
    simpa [Cursor.advance_zero] using this
  have hrun := Cursor.run_eq (c := c) (s := []) (p := Char.isDigit) (by simpa using hc) (by simp)
    (h.mono fun x hx => by rw [opensNumber, hx, Bool.true_or])
  simp only [number, hsign, hrun, List.isEmpty_nil, if_true]

theorem isDigits_run (c : Cursor) (h : (c.run Char.isDigit).1 ≠ []) :
    IsDigits (c.run Char.isDigit).1 :=
  ⟨h, List.all_eq_true.mp List.all_takeWhile⟩

theorem fraction_cases (c : Cursor) :
    (fraction c).1 = [] ∨ ∃ ds, (fraction c).1 = '.' :: ds ∧ IsDigits ds := by
  rw [fraction]
  split
  case h_1 x rest h =>
    split
    case isTrue hx =>
      refine .inr ⟨_, rfl, isDigits_run _ ?_⟩
      simp [Cursor.run, h, hx]
    case isFalse => exact .inl rfl
  case h_2 => exact .inl rfl

theorem number_yields : Yields number (fun s => IsNumber s.toList) := by
  intro c s c' h
  simp only [number] at h
  split at h
  case isTrue => cases h
  case isFalse hne =>
    obtain ⟨rfl, -⟩ := Prod.mk.inj (Option.some.inj h)
    refine ⟨(sign c).1, _, _, String.toList_ofList, ?_, isDigits_run _ (by simpa using hne),
      fraction_cases _⟩
    rw [sign]
    split
    case h_1 => exact .inr rfl
    case h_2 => exact .inl rfl

/-! ### Strings -/

/-- A character between double quotes is written with a short escape or as itself. -/
theorem escape_cases (x : Char) :
    (∃ y, Layout.Quote.escape '"' x = ['\\', y] ∧ shortEscape? y = some x ∧ y ≠ 'u') ∨
      Layout.Quote.escape '"' x = [x] ∧ x ≠ '\\' ∧ x ≠ '"' ∧ isLineBreak x = false := by
  rcases Layout.Quote.escape_cases '"' x with ⟨y, hy, hxy⟩ | ⟨hx, h₁, h₂, h₃, h₄⟩
  · refine .inl ⟨y, hy, ?_⟩
    rcases hxy with ⟨rfl, rfl⟩ | ⟨rfl, rfl⟩ | ⟨rfl, rfl⟩ | ⟨rfl, rfl⟩ <;> decide
  · exact .inr ⟨hx, h₁, h₄, by simp [isLineBreak, h₂, h₃]⟩

/-- A body with all quotes escaped is measured up to the closing quote. -/
theorem bodyLength_escape (s rest : List Char) :
    bodyLength (s.flatMap (Layout.Quote.escape '"') ++ '"' :: rest) =
      (s.flatMap (Layout.Quote.escape '"')).length := by
  induction s with
  | nil => simp [bodyLength]
  | cons x s ih =>
      rw [List.flatMap_cons, List.append_assoc]
      rcases escape_cases x with ⟨y, hy, -, -⟩ | ⟨hx, h₁, h₂, h₃⟩
      · simp only [hy, List.cons_append, List.nil_append, bodyLength, ih, List.length_cons]
      · simp only [hx, List.cons_append, List.nil_append, List.length_cons]
        rw [bodyLength.eq_2]
        · simp [h₁, h₂, h₃, ih]
        · rintro _ _ rfl
          exact absurd rfl h₁

/-- Decoding undoes escaping. -/
theorem decode_escape (s : List Char) :
    decode (s.flatMap (Layout.Quote.escape '"')) = .ok s := by
  induction s with
  | nil => rfl
  | cons x s ih =>
      rw [List.flatMap_cons]
      rcases escape_cases x with ⟨y, hy, hx, hu⟩ | ⟨hx, h₁, -, -⟩
      · rw [hy, List.cons_append, List.cons_append, List.nil_append,
          decode.eq_4 _ _ (fun _ _ _ _ _ h => absurd h hu) hu, hx, ih]
        rfl
      · rw [hx, List.cons_append, List.nil_append,
          decode.eq_6 _ _ (fun _ _ _ _ _ h => absurd h h₁) (fun _ h => absurd h h₁)
            (fun _ _ h => absurd h h₁) (fun h => absurd h h₁), ih]
        rfl

theorem stringBody_refuses {rest : List Char} (h : Stops (· == '"') rest) :
    Refuses stringBody rest := by
  intro c hc
  simp only [stringBody, Cursor.eat?_char_eq_none (x := '"') (by rwa [hc]), Option.bind_eq_bind,
    Option.bind_none]

theorem string_refuses {rest : List Char} (h : Stops (· == '"') rest) : Refuses string rest := by
  intro c hc
  simp only [string, stringBody_refuses h c hc, Option.bind_eq_bind, Option.bind_none]

end SchemaEnums.Schema.Grammar
