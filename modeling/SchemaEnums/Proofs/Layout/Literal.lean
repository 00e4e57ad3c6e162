import SchemaEnums.Layout.Quote
import SchemaEnums.Text.Escape

/-!
# Layout — Literal

What a string literal of the generated file says, and how many escapes it takes.

`decode` reads the body of a literal with all escape sequences that a script can hold, most of which
the file never writes.  A body is seen here as what stands behind a backslash (`escaped`) and what
does not (`unescaped`).  All three are told character by character of the quoted text
(`escape_shape`), because an escaped character is never more than a backslash and one character.

A literal is reversible and has no more escaped quotes than between the other quote
(`literal_minimal`).
-/

namespace SchemaEnums.Layout.Literal
open Text Quote

/-! ### Escape sequences -/

/-- The lines of a script end with one of these; behind a backslash they stand for nothing. -/
def endsLine (c : Char) : Bool :=
  c == '\n' || c == '\r' || c == '\u2028' || c == '\u2029'

/-- The character with a hexadecimal number, and the length of the sequence that names it. -/
def numbered? (digits : List Char) (length : Nat) : Option (List Char × Nat) := do
  let n ← natural? 16 digits
  let c ← scalar? n
  some ([c], length)

/-- What a text behind a backslash begins with: what that stands for, and its length.  The number of
a surrogate is not read, also where two of them name one character, and of the digits only a zero
that no digit follows is. -/
def escapeSequence? : List Char → Option (List Char × Nat)
  | '\r' :: '\n' :: _              => some ([], 2)
  | 'x' :: a :: b :: _             => numbered? [a, b] 3
  | 'u' :: '{' :: rest             =>
    let digits := rest.takeWhile (· != '}')
    if digits.length < rest.length then numbered? digits (digits.length + 3) else none
  | 'u' :: a :: b :: c :: d :: _   => numbered? [a, b, c, d] 5
  | '0' :: rest                    =>
    if (rest.head?.any Char.isDigit) then none else some (['\x00'], 1)
  | c :: _                         =>
    if endsLine c then some ([], 1)
    else
      match c with
      | 'n' => some (['\n'], 1)
      | 'r' => some (['\r'], 1)
      | 't' => some (['\t'], 1)
      | 'b' => some (['\x08'], 1)
      | 'f' => some (['\x0c'], 1)
      | 'v' => some (['\x0b'], 1)
      | c   => if c.isDigit || c == 'x' || c == 'u' then none else some ([c], 1)
  | []                             => none

/-- The text of a body between quotes `q`, the first characters of which have been read. -/
def decodeBehind (q : Char) : (read : Nat) → List Char → Option (List Char)
  | 0,     []           => some []
  | _ + 1, []           => none
  | 0,     '\\' :: rest => do
    let (text, length) ← escapeSequence? rest
    (decodeBehind q length rest).map (text ++ ·)
  | 0,     c :: rest    =>
    if c == q || c == '\n' || c == '\r' then none else (decodeBehind q 0 rest).map (c :: ·)
  | n + 1, _ :: rest    => decodeBehind q n rest

/-- The text that the body of a literal between quotes `q` stands for. -/
def decode (q : Char) (body : List Char) : Option (List Char) := decodeBehind q 0 body

/-- The characters of a body with a backslash before them. -/
def escaped : List Char → List Char
  | '\\' :: c :: rest => c :: escaped rest
  | _ :: rest         => escaped rest
  | []                => []

/-- The characters of a body without a backslash before them. -/
def unescaped : List Char → List Char
  | '\\' :: _ :: rest => unescaped rest
  | c :: rest         => c :: unescaped rest
  | []                => []

/-- The character can enclose a literal. -/
def isQuote (c : Char) : Bool := c == '"' || c == '\''

/-- The number of escaped quotes in a body. -/
def escapedQuotes (body : List Char) : Nat := (escaped body).countP isQuote

/-- The body of the literal for a text between quotes `q`. -/
def between (q : Char) (text : List Char) : List Char := text.flatMap (escape q)

/-! ### Character by character -/

section Body

variable {q c x : Char} {rest : List Char}

theorem decodeBehind_escape (h : escapeSequence? (x :: rest) = some ([c], 1)) :
    decodeBehind q 0 ('\\' :: x :: rest) = (decodeBehind q 0 rest).map (c :: ·) := by
  rw [decodeBehind, h]
  rfl

theorem decodeBehind_plain (hescape : c ≠ '\\') (hquote : c ≠ q) (hlineFeed : c ≠ '\n')
    (hreturn : c ≠ '\r') :
    decodeBehind q 0 (c :: rest) = (decodeBehind q 0 rest).map (c :: ·) := by
  rw [decodeBehind.eq_4 _ _ _ hescape, if_neg (by simp [hquote, hlineFeed, hreturn])]

theorem escaped_plain (h : c ≠ '\\') : escaped (c :: rest) = escaped rest :=
  escaped.eq_2 _ _ fun _ _ hc _ => h hc

theorem unescaped_plain (h : c ≠ '\\') : unescaped (c :: rest) = c :: unescaped rest :=
  unescaped.eq_2 _ _ fun _ _ hc _ => h hc

end Body

/-! ### Text by text -/

section Between

variable {q : Char}

theorem isQuote_iff {c : Char} : isQuote c = true ↔ c = '"' ∨ c = '\'' := by
  simp only [isQuote, Bool.or_eq_true, beq_iff_eq]

/-- A character stands in a body behind a backslash that is read as it, or by itself. -/
theorem escape_shape (hq : isQuote q = true) (c : Char) :
    (∃ x, escape q c = ['\\', x] ∧ (∀ rest, escapeSequence? (x :: rest) = some ([c], 1)) ∧
      (isQuote x = true ↔ c = q) ∧ x ≠ '\n' ∧ x ≠ '\r') ∨
      escape q c = [c] ∧ c ≠ '\\' ∧ c ≠ '\n' ∧ c ≠ '\r' ∧ c ≠ q := by
  refine (escape_cases q c).imp_left fun ⟨x, hx, hcases⟩ => ⟨x, hx, ?_⟩
  rcases isQuote_iff.mp hq with rfl | rfl <;>
    rcases hcases with ⟨rfl, rfl⟩ | ⟨rfl, rfl⟩ | ⟨rfl, rfl⟩ | ⟨rfl, rfl⟩ <;>
    exact ⟨fun _ => rfl, by decide⟩

theorem between_cons (c : Char) (text : List Char) :
    between q (c :: text) = escape q c ++ between q text := List.flatMap_cons

/-- **A body is read as the text it stands for.** -/
theorem decode_between (hq : isQuote q = true) (text : List Char) :
    decode q (between q text) = some text := by
  induction text with
  | nil => rfl
  | cons c text ih =>
      rw [decode] at ih ⊢
      rw [between_cons]
      rcases escape_shape hq c with ⟨x, hx, hread, -⟩ | ⟨hx, h₁, h₂, h₃, h₄⟩
      · rw [hx, List.cons_append, List.singleton_append, decodeBehind_escape (hread _), ih]
        rfl
      · rw [hx, List.singleton_append, decodeBehind_plain h₁ h₄ h₂ h₃, ih]
        rfl

/-- No line ends in a body. -/
theorem oneLine_between (hq : isQuote q = true) (text : List Char) :
    ∀ x ∈ between q text, x ≠ '\n' ∧ x ≠ '\r' := by
  intro x hx
  obtain ⟨c, -, hc⟩ := List.mem_flatMap.mp hx
  rcases escape_shape hq c with ⟨y, hy, -, -, h₁, h₂⟩ | ⟨he, -, h₁, h₂, -⟩
  · rw [hy, List.mem_cons, List.mem_singleton] at hc
    rcases hc with rfl | rfl
    · decide
    · exact ⟨h₁, h₂⟩
  · rw [he, List.mem_singleton] at hc
    exact hc ▸ ⟨h₁, h₂⟩

/-- A body ends before the quote behind it. -/
theorem quotedLength_between (hq : isQuote q = true) (text rest : List Char) :
    quotedLength q (between q text ++ q :: rest) = (between q text).length := by
  induction text with
  | nil => rcases isQuote_iff.mp hq with rfl | rfl <;> rfl
  | cons c text ih =>
      rw [between_cons, List.append_assoc]
      rcases escape_shape hq c with ⟨x, hx, -⟩ | ⟨hx, h₁, -, -, h₄⟩
      · rw [hx, List.cons_append, List.singleton_append, quotedLength, ih]
        rfl
      · rw [hx, List.singleton_append, quotedLength.eq_2 _ _ _ fun _ _ hc _ => h₁ hc, ih,
          if_neg (by simpa using h₄)]
        rfl

/-- Where the quote itself stands in a body, a backslash is before it. -/
theorem unescaped_between (hq : isQuote q = true) (text : List Char) :
    q ∉ unescaped (between q text) := by
  induction text with
  | nil => exact List.not_mem_nil
  | cons c text ih =>
      rw [between_cons]
      rcases escape_shape hq c with ⟨x, hx, -⟩ | ⟨hx, h₁, -, -, h₄⟩
      · rw [hx]
        exact ih
      · rw [hx, List.singleton_append, unescaped_plain h₁]
        exact List.not_mem_cons_of_ne_of_not_mem (Ne.symm h₄) ih

/-- Of the quotes in a text, those that enclose it are escaped. -/
theorem escapedQuotes_between (hq : isQuote q = true) (text : List Char) :
    escapedQuotes (between q text) = text.count q := by
  induction text with
  | nil => rfl
  | cons c text ih =>
      rw [escapedQuotes] at ih ⊢
      rw [between_cons, List.count_cons]
      rcases escape_shape hq c with ⟨x, hx, -, hquote⟩ | ⟨hx, h₁, -, -, h₄⟩
      · rw [hx, List.cons_append, List.singleton_append, escaped, List.countP_cons, ih]
        simp only [hquote, beq_iff_eq]
      · rw [hx, List.singleton_append, escaped_plain h₁, ih, if_neg (by simpa using h₄),
          Nat.add_zero]

end Between

/-! ### The literal -/

theorem literal_toList (preferSingle : Bool) (text : String) :
    (literal preferSingle text).toList = delimiter preferSingle text.toList ::
      between (delimiter preferSingle text.toList) text.toList ++
        [delimiter preferSingle text.toList] := String.toList_ofList

theorem isQuote_delimiter (preferSingle : Bool) (text : List Char) :
    isQuote (delimiter preferSingle text) = true :=
  isQuote_iff.mpr (delimiter_cases preferSingle text)

/-- The text has no more of the quote that is taken than of the other. -/
theorem count_delimiter (preferSingle : Bool) (text : List Char) :
    text.count (delimiter preferSingle text) = min (text.count '\'') (text.count '"') := by
  cases preferSingle with
  | false =>
      simp only [delimiter, Bool.false_eq_true, if_false]
      split <;> omega
  | true =>
      simp only [delimiter, if_true]
      split <;> omega

theorem delimiter_of_tie (preferSingle : Bool) (text : List Char)
    (h : text.count '\'' = text.count '"') :
    delimiter preferSingle text = if preferSingle then '\'' else '"' := by
  simp only [delimiter, h, Nat.lt_irrefl, if_false]

/-- **A literal is reversible and has as few escapes as possible.**  It begins and ends with one
quote; between the two there is no line break and no such quote without a backslash, and what stands
there is read as the text.  The quotes escaped there are as few as between either quote, that is as
many as the text has of the quote it has fewer of; where it has as many of both, the preferred one
is taken. -/
theorem literal_minimal (preferSingle : Bool) (text : String) :
    ∃ q body, isQuote q = true ∧ (literal preferSingle text).toList = q :: body ++ [q] ∧
      '\n' ∉ body ∧ '\r' ∉ body ∧ q ∉ unescaped body ∧ decode q body = some text.toList ∧
      (∀ q', isQuote q' = true → escapedQuotes body ≤ escapedQuotes (between q' text.toList)) ∧
      escapedQuotes body = min (text.toList.count '\'') (text.toList.count '"') ∧
      (text.toList.count '\'' = text.toList.count '"' →
        q = if preferSingle then '\'' else '"') := by
  have hq := isQuote_delimiter preferSingle text.toList
  have hcount := (escapedQuotes_between hq text.toList).trans (count_delimiter ..)
  have hline := oneLine_between hq text.toList
  refine ⟨_, _, hq, literal_toList preferSingle text, fun h => (hline _ h).1 rfl,
    fun h => (hline _ h).2 rfl, unescaped_between hq _, decode_between hq _, fun q' hq' => ?_,
    hcount, delimiter_of_tie preferSingle text.toList⟩
  rw [hcount, escapedQuotes_between hq']
  rcases isQuote_iff.mp hq' with rfl | rfl
  · exact Nat.min_le_right ..
  · exact Nat.min_le_left ..

/-- A text with one of each quote, a backslash and a line feed is enclosed as preferred. -/
theorem literal_minimal_tie : ∃ body,
    (literal true "'\\\"\n").toList = '\'' :: body ++ ['\''] ∧ escapedQuotes body = 1 ∧
      decode '\'' body = some ['\'', '\\', '"', '\n'] := by
  obtain ⟨q, body, -, hliteral, -, -, -, hdecode, -, hcount, htie⟩ :=
    literal_minimal true "'\\\"\n"
  obtain rfl : q = '\'' := htie (by decide)
  exact ⟨body, hliteral, hcount, hdecode⟩

end SchemaEnums.Layout.Literal
