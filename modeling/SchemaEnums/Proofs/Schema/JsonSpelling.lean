import SchemaEnums.Proofs.Schema.Check
import SchemaEnums.Proofs.Schema.Escapes

/-!
# Schema — JsonSpelling

The spellings that JSON has for a string, as literals of a schema.  JSON writes a character as
itself, by a letter, by its code point, or, beyond the first plane, by two surrogates; `JsonBody`
says that a body spells a string, with the manner in which each of its characters is written.

A body without surrogates is decoded to the string that it spells, and one with surrogates is not
decoded (`JsonBody.decode_eq`): each `\u` has to name a character by itself, and half of a pair
names none.  So exactly the spellings without surrogates are read (`json_spelling_read_iff`).
-/

namespace SchemaEnums.Schema
open Text Text.Reader Grammar Literal

/-! ### How JSON spells a string -/

/-- The number of a hexadecimal digit, whose letters may be large. -/
def IsHexDigitOf (n : Nat) (c : Char) : Prop :=
  n < 16 ∧ (c = n.digitChar ∨ c = n.digitChar.toUpper)

instance (n : Nat) (c : Char) : Decidable (IsHexDigitOf n c) := inferInstanceAs (Decidable (_ ∧ _))

/-- Four hexadecimal digits write the number. -/
inductive Hex4 : Nat → List Char → Prop where
  | mk {a b c d : Nat} {w x y z : Char} (ha : IsHexDigitOf a w) (hb : IsHexDigitOf b x)
      (hc : IsHexDigitOf c y) (hd : IsHexDigitOf d z) :
      Hex4 (((a * 16 + b) * 16 + c) * 16 + d) [w, x, y, z]

/-- The letters that stand for characters behind a backslash. -/
def jsonLetters : List (Char × Char) :=
  [('"', '"'), ('\\', '\\'), ('/', '/'), ('b', '\x08'), ('f', '\x0c'), ('n', '\n'), ('r', '\r'),
   ('t', '\t')]

/-- The manners in which JSON writes a character. -/
inductive Manner where
  | raw
  | letter
  | codePoint
  | surrogates
deriving Repr, DecidableEq

/-- The text writes the character in the given manner. -/
inductive Manner.Writes : Manner → Char → List Char → Prop where
  | raw {x : Char} (hx : ' ' ≤ x) (hquote : x ≠ '"') (hbackslash : x ≠ '\\') : Writes .raw x [x]
  | letter {x y : Char} (h : (y, x) ∈ jsonLetters) : Writes .letter x ['\\', y]
  | codePoint {x : Char} {ds : List Char} (h : Hex4 x.toNat ds) :
      Writes .codePoint x ('\\' :: 'u' :: ds)
  | surrogates {x : Char} {high low : Nat} {ds es : List Char}
      (hhigh : 0xd800 ≤ high ∧ high < 0xdc00) (hlow : 0xdc00 ≤ low ∧ low < 0xe000)
      (hx : x.toNat = 0x10000 + (high - 0xd800) * 0x400 + (low - 0xdc00)) (hds : Hex4 high ds)
      (hes : Hex4 low es) : Writes .surrogates x ('\\' :: 'u' :: (ds ++ '\\' :: 'u' :: es))

/-- The body spells the string, with its characters written in the given manners. -/
inductive JsonBody : List Manner → List Char → List Char → Prop where
  | nil : JsonBody [] [] []
  | cons {m : Manner} {ms : List Manner} {x : Char} {s t body : List Char} (hx : m.Writes x t)
      (h : JsonBody ms s body) : JsonBody (m :: ms) (x :: s) (t ++ body)

/-! ### Digits and code points -/

theorem IsHexDigitOf.hexDigit?_eq {n : Nat} {c : Char} (h : IsHexDigitOf n c) :
    hexDigit? c = some n := by
  have hdigits : ∀ n < 16, hexDigit? n.digitChar = some n ∧
      hexDigit? n.digitChar.toUpper = some n := by decide
  obtain ⟨hn, rfl | rfl⟩ := h
  · exact (hdigits n hn).1
  · exact (hdigits n hn).2

theorem IsHexDigitOf.isHexDigit {n : Nat} {c : Char} (h : IsHexDigitOf n c) :
    isHexDigit c = true := by
  rw [Schema.isHexDigit, h.hexDigit?_eq]
  rfl

/-- Four digits are read as the character of their number. -/
theorem Hex4.unicode?_eq {n : Nat} {ds : List Char} (h : Hex4 n ds) : unicode? ds = scalar? n := by
  obtain @⟨a, b, c, d, w, x, y, z, ha, hb, hc, hd⟩ := h
  have hplus : w ≠ '+' := by
    rintro rfl
    exact absurd ha.isHexDigit (by decide)
  have hvalue : natural? 16 [w, x, y, z] = some (((a * 16 + b) * 16 + c) * 16 + d) := by
    simp [natural?, digitsValue?, ha.hexDigit?_eq, hb.hexDigit?_eq, hc.hexDigit?_eq,
      hd.hexDigit?_eq, ha.1, hb.1, hc.1, hd.1]
  rw [unicode?.eq_def]
  split
  case h_1 h => exact absurd (List.cons.inj h).1 hplus
  case h_2 => rw [hvalue, Option.bind_some]

theorem scalar?_toNat (x : Char) : scalar? x.toNat = some x := by
  rw [scalar?, dif_pos (show x.toNat.isValidChar from x.valid)]
  rfl

theorem scalar?_surrogate {n : Nat} (h : 0xd800 ≤ n ∧ n < 0xe000) : scalar? n = none := by
  refine dif_neg fun hvalid => ?_
  rcases hvalid with h' | h' <;> omega

/-! ### Bodies -/

theorem isBody_of_isHexDigit {ds body : List Char} (hds : ∀ d ∈ ds, isHexDigit d = true)
    (h : IsBody body) : IsBody (ds ++ body) := by
  induction ds with
  | nil => exact h
  | cons d ds ih =>
      obtain ⟨hd, hds⟩ := List.forall_mem_cons.mp hds
      refine .char ?_ (ih hds)
      by_contra hbare
      simp only [Bool.not_eq_false, Bool.or_eq_true, beq_iff_eq, isLineBreak] at hbare
      rcases hbare with (rfl | rfl) | rfl | rfl <;> exact absurd hd (by decide)

theorem Hex4.isHexDigit {n : Nat} {ds : List Char} (h : Hex4 n ds) :
    ∀ d ∈ ds, isHexDigit d = true := by
  obtain ⟨ha, hb, hc, hd⟩ := h
  simp [ha.isHexDigit, hb.isHexDigit, hc.isHexDigit, hd.isHexDigit]

/-- Neither an escaped quote nor an escaped backslash ends the literal. -/
theorem Manner.Writes.isBody {m : Manner} {x : Char} {t body : List Char} (h : m.Writes x t)
    (hbody : IsBody body) : IsBody (t ++ body) := by
  cases h with
  | raw hx hquote hbackslash =>
      refine .char ?_ hbody
      have hbreak : isLineBreak x = false := by
        by_contra hbreak
        simp only [Bool.not_eq_false, isLineBreak, Bool.or_eq_true, beq_iff_eq] at hbreak
        rcases hbreak with rfl | rfl <;> exact absurd hx (by decide)
      simp [hquote, hbackslash, hbreak]
  | letter => exact .escape _ hbody
  | codePoint hds => exact .escape _ (isBody_of_isHexDigit hds.isHexDigit hbody)
  | surrogates hhigh hlow hx hds hes =>
      have hlast : IsBody ('\\' :: 'u' :: (_ ++ body)) :=
        .escape _ (isBody_of_isHexDigit hes.isHexDigit hbody)
      simpa using IsBody.escape 'u' (isBody_of_isHexDigit hds.isHexDigit hlast)

theorem JsonBody.isBody {ms : List Manner} {s body : List Char} (h : JsonBody ms s body) :
    IsBody body := by
  induction h with
  | nil => exact .nil
  | cons hx _ ih => exact hx.isBody ih

/-- Four digits behind `\u` are decoded by what they are read as. -/
theorem Hex4.decode_eq {n : Nat} {ds : List Char} (h : Hex4 n ds) (rest : List Char) :
    decode ('\\' :: 'u' :: (ds ++ rest)) = match scalar? n with
      | some x => (decode rest).map (x :: ·)
      | none   => .error .invalidUnicodeEscape := by
  have hunicode := h.unicode?_eq
  obtain ⟨ha, hb, hc, hd⟩ := h
  rw [← hunicode]
  exact decode.eq_2 ..

/-- One character is decoded, unless it is written by surrogates. -/
theorem Manner.Writes.decode_eq {m : Manner} {x : Char} {t : List Char} (h : m.Writes x t)
    (rest : List Char) : decode (t ++ rest) =
      if m = .surrogates then .error .invalidUnicodeEscape else (decode rest).map (x :: ·) := by
  cases h with
  | raw hx hquote hbackslash =>
      rw [if_neg (by decide), List.singleton_append]
      exact decode.eq_6 _ _ (fun _ _ _ _ _ h => absurd h hbackslash)
        (fun _ h => absurd h hbackslash) (fun _ _ h => absurd h hbackslash)
        (fun h => absurd h hbackslash)
  | @letter x y h =>
      have hletters : ∀ p ∈ jsonLetters, shortEscape? p.1 = some p.2 ∧ p.1 ≠ 'u' := by decide
      obtain ⟨hletter, hu⟩ := hletters _ h
      rw [if_neg (by decide), List.cons_append, List.cons_append, List.nil_append,
        decode.eq_4 _ _ (fun _ _ _ _ _ h => absurd h hu) hu, hletter]
  | codePoint hds =>
      rw [if_neg (by decide), List.cons_append, List.cons_append, hds.decode_eq, scalar?_toNat]
  | surrogates hhigh hlow hx hds hes =>
      rw [if_pos rfl, List.cons_append, List.cons_append, List.append_assoc, hds.decode_eq,
        scalar?_surrogate ⟨hhigh.1, by omega⟩]

/-- **What the spelling of a string is decoded to.** -/
theorem JsonBody.decode_eq {ms : List Manner} {s body : List Char} (h : JsonBody ms s body) :
    decode body = if .surrogates ∈ ms then .error .invalidUnicodeEscape else .ok s := by
  induction h with
  | nil => rfl
  | @cons m ms x s t body hx _ ih =>
      rw [hx.decode_eq, ih]
      by_cases hm : m = .surrogates
      · simp [hm]
      · by_cases hms : Manner.surrogates ∈ ms <;> simp [hm, Ne.symm hm, hms, Except.map]

/-! ### The literal in a schema -/

/-- A value that is a string literal is what its body is decoded to. -/
theorem expression_literal {c c' : Cursor} {body : List Char} (h : IsBody body)
    (hp : c.Passes ('"' :: (body ++ ['"'])) c') : ∃ p, expression c =
      some (((decode body).map fun v => .string (String.ofList v)).mapError (⟨p, ·⟩), c') := by
  obtain ⟨x, bound, hc⟩ : ∃ x bound, c.rest = x :: bound := ⟨_, _, hp.rest⟩
  have h₁ : call (expressionWithin bound) c = none := call_refuses (.cons rfl) c hp.rest
  have h₂ : array (expressionWithin bound) c = none := array_refuses (.cons rfl) c hp.rest
  have h₃ := number_refuses (.cons rfl) c hp.rest
  obtain ⟨p, hbody⟩ := stringBody_reads h hp
  refine ⟨p, ?_⟩
  rw [expression, hc]
  simp only [expressionWithin, h₁, h₂, h₃, string, hbody, Option.bind_eq_bind, Option.bind_some,
    Option.map_none, Option.map_some]
  cases decode body <;> rfl

/-- A model that is mapped to the table the body names, by an argument with the label or by one
without. -/
def mappedModel (name : String) (label : Option String) (body : List Char) : String :=
  "model " ++ name ++ " \x7b\n  @@map(" ++ label.elim "" (· ++ ": ") ++ "\"" ++ String.ofList body ++
    "\")\n\x7d\n"

/-- What is read of it. -/
def mappedDocument (name : String) (label : Option String) (value : String) : Document where
  blocks := [.model {
    kind       := .model
    name       := ⟨name, ⟨1, 7⟩⟩
    fields     := []
    attributes := [⟨"map", [.mk label (.string value)]⟩] }]

/-- The label as it stands before the literal. -/
def labelText (label : Option String) : List Char := label.elim [] (·.toList ++ [':', ' '])

theorem labelled_labelText {label : Option String} (h : ∀ l ∈ label, IsName l.toList) :
    Labelled label (labelText label) := by
  cases label with
  | none => exact .none
  | some l => exact .some (h l rfl) isSpaces_nil (by simp [IsSpaces, isSpace])

/-- What stands between the braces of the model. -/
def mappedLines (label : Option String) (body : List Char) : List Char :=
  '\n' :: ' ' :: ' ' :: '@' :: '@' :: ("map".toList ++ '(' :: (labelText label ++
    ('"' :: (body ++ ['"', ')', '\n']))))

theorem mappedModel_toList (name : String) (label : Option String) (body : List Char) :
    (mappedModel name label body).toList =
      headText "model" [' '] name [' '] ++ (mappedLines label body ++ ['}', '\n']) := by
  cases label <;> simp [mappedModel, mappedLines, labelText, headText]

/-- It begins with no byte order mark. -/
theorem withoutMark_mappedModel (name : String) (label : Option String) (body : List Char) :
    withoutMark (mappedModel name label body).toList =
      headText "model" [' '] name [' '] ++ (mappedLines label body ++ ['}', '\n']) := by
  rw [mappedModel_toList]
  exact withoutMark_eq_self (.cons (x := 'm') rfl)

theorem mappedLines_spelled {label : Option String} {value : String} {body : List Char}
    (hlabel : ∀ l ∈ label, IsName l.toList) (hbody : IsBody body)
    (hdecode : decode body = .ok value.toList) (p : Position) :
    SpelledLines (Line.Spelled Field.Spelled) p
      [.blockAttribute ⟨"map", [.mk label (.string value)]⟩] (mappedLines label body) := by
  have hindent : IsSpaces [' ', ' '] := by simp [IsSpaces, isSpace]
  have hempty : IsBlank [] := .spaces isSpaces_nil
  let argument : ArgumentText :=
    ⟨.mk label (.string value), labelText label, '"' :: (body ++ ['"'])⟩
  have hargument : ∀ i ∈ [argument], i.Spelled := fun i hi => by
    rw [List.mem_singleton.mp hi]
    exact ⟨labelled_labelText hlabel, .string hbody hdecode⟩
  have hattribute : Attribute.Spelled ⟨"map", [.mk label (.string value)]⟩
      ("map".toList ++ '(' :: ([] ++ (argument.text ++ ([] ++ [')'])))) :=
    .listed (IsName.isPath (by decide)) hargument
      (.items (.spaces isSpaces_nil) (.close (.spaces isSpaces_nil)))
  have hlines := SpelledLines.blank (p := p) (S := Line.Spelled Field.Spelled) (x := '\n') hempty
    rfl (.item hindent (.blockAttribute hattribute) hempty (x := '\n') rfl (.close isSpaces_nil))
  simpa [mappedLines, ArgumentText.text, argument] using hlines

theorem mappedDocument_parse {name value : String} {label : Option String} {body : List Char}
    (hname : IsName name.toList) (hlabel : ∀ l ∈ label, IsName l.toList) (hbody : IsBody body)
    (hdecode : decode body = .ok value.toList) :
    Document.parse (mappedModel name label body) = .ok (mappedDocument name label value) := by
  have hspace : IsSpaces [' '] := by simp [IsSpaces, isSpace]
  have hplace : Position.mk 1 7 = Position.start.afterAll ("model".toList ++ [' ']) := by decide
  have hblock : Block.Spelled .start (.model ⟨.model, ⟨name, ⟨1, 7⟩⟩, [],
      [⟨"map", [.mk label (.string value)]⟩]⟩)
      (headText "model" [' '] name [' '] ++ (mappedLines label body ++ ['}'])) :=
    .mk hspace (by simp) ⟨hname, hplace⟩ hspace
      (.model (mappedLines_spelled hlabel hbody hdecode _))
  have hblocks := SpelledBlocks.block (s := []) isSpaces_nil hblock
    (.line (s := []) (x := '\n') (.spaces isSpaces_nil) rfl (.nil (.spaces isSpaces_nil)))
  rw [Document.parse_eq_ok_iff, Document.Spelled, withoutMark_mappedModel]
  simpa [mappedDocument, Position.start] using hblocks

/-- The literal is one of the text, whatever it is decoded to. -/
theorem mem_literals_mappedModel {name : String} {label : Option String} {body : List Char}
    (hname : IsName name.toList) (hlabel : ∀ l ∈ label, IsName l.toList) (hbody : IsBody body) :
    ⟨body, false⟩ ∈ literals (mappedModel name label body) := by
  have hspace : IsSpaces [' '] := by simp [IsSpaces, isSpace]
  have hhead := (headText_lexes (w := "model") (by decide) hname hspace (by simp)
    hspace).tokens_append (mappedLines label body ++ ['}', '\n'])
  have hmap : IsName "map".toList := by decide
  have hword := hmap.isWord.lexes ('(' :: (labelText label ++
    ('"' :: (body ++ '"' :: [')', '\n', '}', '\n'])))) (.cons rfl)
  have hstring := tokens_string hbody [')', '\n', '}', '\n']
  have hlines : tokens (mappedLines label body ++ ['}', '\n']) = .mark '@' :: .mark '@' ::
      .word "map".toList :: .mark '(' :: tokens (labelText label ++
        ('"' :: (body ++ '"' :: [')', '\n', '}', '\n']))) := by
    have hshape : mappedLines label body ++ ['}', '\n'] =
        '\n' :: ' ' :: ' ' :: '@' :: '@' :: ("map".toList ++ '(' :: (labelText label ++
          ('"' :: (body ++ '"' :: [')', '\n', '}', '\n'])))) := by simp [mappedLines]
    rw [hshape, tokens_blank rfl, tokens_blank rfl, tokens_blank rfl, tokens_mark rfl,
      tokens_mark rfl, hword, List.singleton_append, tokens_mark rfl]
  rw [literals, withoutMark_mappedModel, hhead, hlines]
  cases label with
  | none =>
      rw [show labelText none = [] from rfl, List.nil_append, hstring]
      simp [literalsFrom, opensUnsupported]
  | some l =>
      have hl := (hlabel l rfl).isWord.lexes (':' :: ' ' ::
        ('"' :: (body ++ '"' :: [')', '\n', '}', '\n']))) (.cons rfl)
      have hshape : labelText (some l) ++ ('"' :: (body ++ '"' :: [')', '\n', '}', '\n'])) =
          l.toList ++ (':' :: ' ' :: ('"' :: (body ++ '"' :: [')', '\n', '}', '\n']))) := by
        simp [labelText]
      rw [hshape, hl, List.singleton_append, tokens_mark rfl, tokens_blank rfl, hstring]
      simp [literalsFrom, opensUnsupported]

/-- **What the spellings of a string are read as.**  They are read as the string if no character is
written by surrogates, as a value and by either form of `@@map`.  If one is, no text is read in
which the spelling stands as a literal, but for the argument of `Unsupported`. -/
theorem json_spelling_read_iff {ms : List Manner} {value : String} {body : List Char}
    (h : JsonBody ms value.toList body) :
    (∀ c c', c.Passes ('"' :: (body ++ ['"'])) c' →
      (expression c = some (.ok (.string value), c') ↔ .surrogates ∉ ms)) ∧
    (∀ name label, IsName name.toList → label = none ∨ label = some "name" →
      (Summary.read (mappedModel name label body) = .ok ⟨[⟨name, some value⟩], []⟩ ↔
        .surrogates ∉ ms)) ∧
    (.surrogates ∈ ms → ∀ text, ⟨body, false⟩ ∈ literals text →
      ∃ e, Document.parse text = .error e) := by
  -- every literal of a text that is read is decoded, and with surrogates this one is not
  have hliteral : .surrogates ∈ ms → ∀ text, ⟨body, false⟩ ∈ literals text →
      ∃ e, Document.parse text = .error e := by
    intro hms text hmem
    cases hparse : Document.parse text with
    | error e => exact ⟨e, rfl⟩
    | ok d =>
        obtain ⟨v, hv⟩ := (Document.parse_eq_ok_iff.mp hparse).decoded.literals [] _ hmem rfl
        rw [h.decode_eq, if_pos hms] at hv
        cases hv
  refine ⟨fun c c' hp => ?_, fun name label hname hlabel => ?_, hliteral⟩
  · obtain ⟨p, hexpression⟩ := expression_literal h.isBody hp
    rw [hexpression, h.decode_eq]
    by_cases hms : .surrogates ∈ ms <;> simp [hms, Except.map, Except.mapError]
  · have hlabelled : ∀ l ∈ label, IsName l.toList := by
      rintro l hl
      rcases hlabel with rfl | rfl
      · cases hl
      · cases hl
        decide
    by_cases hms : .surrogates ∈ ms
    · obtain ⟨e, he⟩ := hliteral hms _ (mem_literals_mappedModel hname hlabelled h.isBody)
      rw [Summary.read, Document.read_of_malformed he]
      exact iff_of_false (fun h => nomatch h) (fun hnot => hnot hms)
    · have hparse := mappedDocument_parse hname hlabelled h.isBody
        (h.decode_eq.trans (if_neg hms))
      rw [Summary.read, Document.read_of_parse hparse]
      refine iff_of_true ?_ hms
      rcases hlabel with rfl | rfl <;> rfl

/-- Each manner but the last is read, with digits of either case. -/
theorem json_spelling_read_euro :
    JsonBody [.raw, .letter, .codePoint] "€\"€".toList "€\\\"\\u20Ac".toList ∧
      Summary.read (mappedModel "Price" (some "name") "€\\\"\\u20Ac".toList) =
        .ok ⟨[⟨"Price", some "€\"€"⟩], []⟩ := by
  have hdigits : Hex4 '€'.toNat ['2', '0', 'A', 'c'] :=
    .mk (a := 2) (b := 0) (c := 10) (d := 12) (by decide) (by decide) (by decide) (by decide)
  have h : JsonBody [.raw, .letter, .codePoint] "€\"€".toList "€\\\"\\u20Ac".toList :=
    .cons (.raw (by decide) (by decide) (by decide)) (.cons (.letter (y := '"') (by decide))
      (.cons (.codePoint hdigits) .nil))
  exact ⟨h, ((json_spelling_read_iff h).2.1 "Price" (some "name") (by decide) (.inr rfl)).mpr
    (by decide)⟩

/-- Not every spelling of a string is read: two surrogates name one character in JSON and none
here. -/
theorem json_surrogates_not_read :
    JsonBody [.surrogates] "😀".toList "\\ud83d\\ude00".toList ∧
      Summary.read (mappedModel "M" none "\\ud83d\\ude00".toList) =
        .error (.malformed ⟨⟨2, 10⟩, .invalidUnicodeEscape⟩) := by
  have hhigh : Hex4 0xd83d ['d', '8', '3', 'd'] :=
    .mk (a := 13) (b := 8) (c := 3) (d := 13) (by decide) (by decide) (by decide) (by decide)
  have hlow : Hex4 0xde00 ['d', 'e', '0', '0'] :=
    .mk (a := 13) (b := 14) (c := 0) (d := 0) (by decide) (by decide) (by decide) (by decide)
  exact ⟨.cons (.surrogates (by decide) (by decide) (by decide) hhigh hlow) .nil, rfl⟩

end SchemaEnums.Schema
