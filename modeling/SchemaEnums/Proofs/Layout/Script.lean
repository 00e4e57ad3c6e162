import SchemaEnums.Enums.Declaration
import SchemaEnums.Proofs.Layout.Literal
import SchemaEnums.Proofs.Text.Reading
import SchemaEnums.Text.Blank

/-!
# Layout — Script

A reader of the enums and the export of a TypeScript file.  It knows no layout options: blanks and
comments may stand anywhere between words, either quote may enclose a literal with any escapes
(`Literal.decode`), and a comma may follow the last of a list.  `file` reads a whole text, so a text
that holds anything else has no reading.
-/

namespace SchemaEnums.Layout.Script
open Text Text.Reader Enums

/-! ### The reader -/

/-- The length of a comment behind its opening sign, up to and with its closing one. -/
def commentLength? : List Char → Option Nat
  | '*' :: '/' :: _ => some 2
  | _ :: rest       => (commentLength? rest).map (· + 1)
  | []              => none

/-- One white-space character, or a comment. -/
def blank : Reader Unit := fun c =>
  match c.rest with
  | '/' :: '*' :: rest => (commentLength? rest).map fun n => ((), c.advance (n + 2))
  | x :: _             => if isBlank x then some ((), c.advance 1) else none
  | []                 => none

/-- The place after white space and comments. -/
def skip (c : Cursor) : Cursor :=
  (Reader.many id blank c).2

/-- A character of a word. -/
def isWordChar (c : Char) : Bool :=
  c.isAlphanum || c == '_' || c == '$' || c == '-'

/-- The longest run of word characters, if there is one. -/
def word : Reader String := fun c =>
  let (w, c) := c.run isWordChar
  if w.isEmpty then none else some (String.ofList w, c)

/-- A string literal, decoded. -/
def literal : Reader String := fun c =>
  match c.rest with
  | q :: rest =>
    let length := quotedLength q rest
    if Literal.isQuote q && rest[length]? == some q then
      (Literal.decode q (rest.take length)).map fun text =>
        (String.ofList text, c.advance (length + 2))
    else none
  | []        => none

/-- A member and its value. -/
def member : Reader Member := fun c => do
  let (identifier, c) ← word c
  let c ← (skip c).eat? ['=']
  let (value, c) ← literal (skip c)
  some (⟨identifier, value⟩, c)

/-- This word. -/
def keyword (k : String) : Reader Unit := fun c => do
  let (w, c) ← word c
  if w = k then some ((), c) else none

/-- An enum. -/
def declaration : Reader Declaration := fun c => do
  let ((), c) ← keyword "enum" c
  let (name, c) ← word (skip c)
  let (members, c) ← Reader.listed skip '{' '}' member (skip c)
  some (⟨name, members⟩, c)

/-- An export; a semicolon may follow it. -/
def exports : Reader (List String) := fun c => do
  let ((), c) ← keyword "export" c
  let (names, c) ← Reader.listed skip '{' '}' word (skip c)
  some (names, ((skip c).eat? [';']).getD c)

/-- The enums and the export of a text that holds nothing else. -/
def file (text : String) : Option (List Declaration × List String) := do
  let c := skip (Cursor.ofText text.toList)
  let (declarations, c) := Reader.many id (fun c => (declaration c).map fun (d, c) => (d, skip c)) c
  let (names, c) ← exports c
  if (skip c).rest.isEmpty then some (declarations, names) else none

/-! ### Blanks -/

/-- A character that `skip` may move past, or a comment's first. -/
def opensBlank (x : Char) : Bool := isBlank x || x == '/'

theorem blank_refuses {rest : List Char} (h : Stops opensBlank rest) : Refuses blank rest := by
  intro c hc
  cases rest with
  | nil => simp only [blank, hc]
  | cons x rest =>
      rw [stops_cons, opensBlank, Bool.or_eq_false_iff] at h
      simp only [blank, hc]
      split
      case h_1 h₁ =>
        rw [(List.cons.inj h₁).1] at h
        exact absurd h.2 (by decide)
      case h_2 h₁ =>
        obtain ⟨rfl, -⟩ := List.cons.inj h₁
        rw [if_neg (by simp [h.1])]
      case h_3 => rfl

theorem blank_takes_char {x : Char} (h : isBlank x = true) (after : List Char) :
    Takes blank [x] after (fun _ => True) := by
  intro c hc
  have hx : x ≠ '/' := by
    rintro rfl
    exact absurd h (by decide)
  refine ⟨(), ?_, trivial⟩
  simp only [blank, hc, List.cons_append, List.nil_append]
  split
  case h_1 h₁ => exact absurd (List.cons.inj h₁).1 hx
  case h_2 h₁ =>
    obtain ⟨rfl, -⟩ := List.cons.inj h₁
    rw [if_pos h]
    rfl
  case h_3 h₁ => cases h₁

theorem commentLength?_append {s : List Char} {n : Nat} (t : List Char)
    (h : commentLength? s = some n) : commentLength? (s ++ t) = some n := by
  induction s using commentLength?.induct generalizing n with
  | case1 s => exact h
  | case2 x s hx ih =>
      rw [commentLength?.eq_2 _ _ hx] at h
      obtain ⟨m, hm, rfl⟩ := Option.map_eq_some_iff.mp h
      rw [List.cons_append, commentLength?.eq_2, ih hm, Option.map_some]
      -- the sign that ends the comment cannot be split between the two texts
      intro rest h₁ h₂
      cases s with
      | nil => cases hm
      | cons y s => exact hx s h₁ (by rw [(List.cons.inj h₂).1])
  | case3 => cases h

theorem blank_takes_comment {s : List Char} (h : commentLength? s = some s.length)
    (after : List Char) : Takes blank ('/' :: '*' :: s) after (fun _ => True) := by
  intro c hc
  have hc₁ : c.rest = '/' :: '*' :: (s ++ after) := by simpa using hc
  refine ⟨(), ?_, trivial⟩
  simp only [blank, hc₁, commentLength?_append after h, Option.map_some, List.length_cons]

/-- Blanks one after the other are passed, each of them taken whole. -/
theorem skip_skips_flatten (pieces : List (List Char))
    (h : ∀ p ∈ pieces, p ≠ [] ∧ ∀ after, Takes blank p after (fun _ => True)) :
    Skips skip pieces.flatten opensBlank := by
  intro c rest hc hr
  obtain ⟨_, hmany, -⟩ := many_takes id blank id (Q := fun _ => True) trivial
    (blank_refuses hr) (fun p hp => (h p hp).1) (fun p hp after _ => ⟨trivial, (h p hp).2 after⟩)
    (by rw [List.flatMap_id]; exact hc)
  rw [skip, hmany, List.flatMap_id]

theorem skip_skips {b : List Char} (h : ∀ x ∈ b, isBlank x = true) : Skips skip b opensBlank := by
  have := skip_skips_flatten (b.map fun x => [x]) (by
    intro p hp
    obtain ⟨x, hx, rfl⟩ := List.mem_map.mp hp
    exact ⟨List.cons_ne_nil x [], blank_takes_char (h x hx)⟩)
  rwa [← List.flatMap_def, List.flatMap_singleton'] at this

theorem space_blank : ∀ x ∈ [' '], isBlank x = true := List.all_eq_true.mp rfl

theorem skip_eq_self {c : Cursor} (h : Stops opensBlank c.rest) : skip c = c :=
  (skip_skips (b := []) (by simp)).stay h

/-! ### Words -/

/-- One or more word characters. -/
def IsWord (w : List Char) : Prop := w ≠ [] ∧ ∀ x ∈ w, isWordChar x = true

instance : DecidablePred IsWord := fun w =>
  decidable_of_iff (w ≠ [] ∧ w.all isWordChar = true) (by rw [IsWord, List.all_eq_true])

theorem isWordChar_iff_toNat {x : Char} : isWordChar x = true ↔
    65 ≤ x.toNat ∧ x.toNat ≤ 90 ∨ 97 ≤ x.toNat ∧ x.toNat ≤ 122 ∨ 48 ≤ x.toNat ∧ x.toNat ≤ 57 ∨
      x.toNat = 95 ∨ x.toNat = 36 ∨ x.toNat = 45 := by
  simp [isWordChar, Char.isAlphanum, isAlpha_iff_toNat, Char.isDigit_iff_toNat, ← Char.toNat_inj,
    or_assoc]

theorem opensBlank_of_isWordChar {x : Char} (h : isWordChar x = true) : opensBlank x = false := by
  by_contra hx
  simp only [opensBlank, Bool.not_eq_false, Bool.or_eq_true, beq_iff_eq, ← Char.toNat_inj] at hx
  rw [isWordChar_iff_toNat] at h
  rcases hx with hx | hx
  · have := isBlank_toNat hx
    omega
  · simp only [Char.reduceToNat] at hx
    omega

theorem IsWord.stops {w : List Char} (h : IsWord w) : Stops opensBlank w := by
  obtain ⟨hne, hall⟩ := h
  cases w with
  | nil => exact absurd rfl hne
  | cons x w => rw [stops_cons]; exact opensBlank_of_isWordChar (hall x (by simp))

theorem word_takes {w rest : List Char} (h : IsWord w) (hr : Stops isWordChar rest) :
    Takes word w rest (fun s => s.toList = w) := by
  intro c hc
  have hw : w.isEmpty = false := by simpa using h.1
  refine ⟨String.ofList w, ?_, String.toList_ofList⟩
  simp only [word, Cursor.run_eq hc h.2 hr, hw, Bool.false_eq_true, if_false]

theorem word_refuses {rest : List Char} (h : Stops isWordChar rest) : Refuses word rest := by
  intro c hc
  have hrun := Cursor.run_eq (c := c) (s := []) (p := isWordChar) (by simpa using hc) (by simp) h
  simp only [word, hrun, List.isEmpty_nil, if_true]

theorem keyword_takes {k : String} {rest : List Char} (h : IsWord k.toList)
    (hr : Stops isWordChar rest) : Takes (keyword k) k.toList rest (fun _ => True) := by
  intro c hc
  obtain ⟨w, hw, hwk⟩ := word_takes h hr c hc
  obtain rfl := String.toList_injective hwk
  refine ⟨(), ?_, trivial⟩
  simp only [keyword, hw, Option.bind_eq_bind, Option.bind_some, if_true]

/-- Another word is not taken for the keyword. -/
theorem keyword_refuses {k w : String} {rest : List Char} (h : IsWord w.toList)
    (hr : Stops isWordChar rest) (hne : w ≠ k) : Refuses (keyword k) (w.toList ++ rest) := by
  intro c hc
  obtain ⟨v, hv, hvw⟩ := word_takes h hr c hc
  obtain rfl := String.toList_injective hvw
  simp only [keyword, hv, Option.bind_eq_bind, Option.bind_some, if_neg hne]

/-! ### Literals -/

/-- **A literal is read as the text that it quotes.** -/
theorem literal_takes (preferSingle : Bool) (s : String) (rest : List Char) :
    Takes literal (Quote.literal preferSingle s).toList rest (fun a => a = s) := by
  intro c hc
  have hq := Literal.isQuote_delimiter preferSingle s.toList
  rw [Literal.literal_toList] at hc ⊢
  generalize Quote.delimiter preferSingle s.toList = q at hq hc ⊢
  have hc₁ : c.rest = q :: (Literal.between q s.toList ++ q :: rest) := by simpa using hc
  refine ⟨s, ?_, rfl⟩
  simp only [literal, hc₁, Literal.quotedLength_between hq, hq, List.take_left, Bool.true_and,
    Literal.decode_between hq]
  simp [String.ofList_toList]

end SchemaEnums.Layout.Script
