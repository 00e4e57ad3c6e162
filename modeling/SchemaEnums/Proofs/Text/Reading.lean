import Mathlib.Data.List.Forall2
import SchemaEnums.Proofs.Outcome
import SchemaEnums.Text.Blank
import SchemaEnums.Text.Cursor

/-!
# Text — Reading

What readers take off the front of a text, and what they refuse.

`read.Takes text rest P` says that wherever `text` stands with `rest` behind it, `read` moves past
`text` and yields a value with `P`; it is how a reader is shown to undo a printer.  `read.Yields P`
says that every value of `read`, whatever it was read off, has `P`.  The loops `many` and `listed`
inherit both from the reader of one item: `many_takes`, `listed_takes`, `many_yields`,
`listed_yields`.
-/

namespace SchemaEnums.Text

/-! ### Letters and white space -/

theorem isUpper_iff_toNat {x : Char} : x.isUpper = true ↔ 65 ≤ x.toNat ∧ x.toNat ≤ 90 := by
  show decide (x.val ≥ 'A'.val ∧ x.val ≤ 'Z'.val) = true ↔ _
  rw [decide_eq_true_iff, ge_iff_le, UInt32.le_iff_toNat_le, UInt32.le_iff_toNat_le]
  rfl

theorem isLower_iff_toNat {x : Char} : x.isLower = true ↔ 97 ≤ x.toNat ∧ x.toNat ≤ 122 := by
  show (decide (x.val ≥ 'a'.val) && decide (x.val ≤ 'z'.val)) = true ↔ _
  rw [Bool.and_eq_true, decide_eq_true_iff, decide_eq_true_iff, ge_iff_le,
    UInt32.le_iff_toNat_le, UInt32.le_iff_toNat_le]
  rfl

theorem isAlpha_iff_toNat {x : Char} : x.isAlpha = true ↔
    65 ≤ x.toNat ∧ x.toNat ≤ 90 ∨ 97 ≤ x.toNat ∧ x.toNat ≤ 122 := by
  show (x.isUpper || x.isLower) = true ↔ _
  rw [Bool.or_eq_true, isUpper_iff_toNat, isLower_iff_toNat]

/-- The white space of ASCII is among its first characters. -/
theorem isBlank_toNat {x : Char} (h : isBlank x = true) :
    x.toNat ≤ 32 ∨ 128 ≤ x.toNat := by
  simp [isBlank, Char.le_def, UInt32.le_iff_toNat_le, ← Char.toNat_inj] at h
  omega

/-! ### Where a run ends -/

/-- The text is over, or its first character is outside the class. -/
def Stops (p : Char → Bool) (text : List Char) : Prop := ∀ x ∈ text.head?, p x = false

@[simp] theorem stops_nil {p : Char → Bool} : Stops p [] := by simp [Stops]

@[simp] theorem stops_cons {p : Char → Bool} {x : Char} {text : List Char} :
    Stops p (x :: text) ↔ p x = false := by simp [Stops]

theorem Stops.cons {p : Char → Bool} {x : Char} {text : List Char} (h : p x = false) :
    Stops p (x :: text) := stops_cons.mpr h

theorem Stops.append_of_ne_nil {p : Char → Bool} {s : List Char} (t : List Char) (h : Stops p s)
    (hs : s ≠ []) : Stops p (s ++ t) := by
  cases s with
  | nil => exact absurd rfl hs
  | cons x s => simpa using h

/-- A class stops wherever a larger one does. -/
theorem Stops.mono {p q : Char → Bool} {text : List Char} (h : Stops q text)
    (hpq : ∀ x, p x = true → q x = true) : Stops p text := fun x hx => by
  by_contra hp
  have hq : q x = true := hpq x (by simpa using hp)
  rw [h x hx] at hq
  cases hq

theorem Stops.takeWhile {p : Char → Bool} {s rest : List Char} (hs : ∀ x ∈ s, p x = true)
    (hr : Stops p rest) : (s ++ rest).takeWhile p = s := by
  rw [List.takeWhile_append_of_pos hs]
  cases rest with
  | nil => simp
  | cons x rest => rw [List.takeWhile_cons_of_neg (by simpa using hr), List.append_nil]

theorem Stops.dropWhile {p : Char → Bool} {s rest : List Char} (hs : ∀ x ∈ s, p x = true)
    (hr : Stops p rest) : (s ++ rest).dropWhile p = rest := by
  rw [List.dropWhile_append_of_pos hs]
  cases rest with
  | nil => rfl
  | cons x rest => exact List.dropWhile_cons_of_neg (by simpa using hr)

theorem intercalate_cons (sep n : List Char) (ns : List (List Char)) :
    sep.intercalate (n :: ns) = n ++ ns.flatMap (sep ++ ·) := by
  induction ns generalizing n with
  | nil => simp
  | cons m ns ih => rw [List.intercalate_cons_cons, ih]; simp

/-! ### Moving -/

namespace Cursor

variable {c c' : Cursor} {s rest : List Char}

theorem rest_advance_length (h : c.rest = s ++ rest) : (c.advance s.length).rest = rest := by
  rw [rest_advance, h, List.drop_left]

theorem run_eq {p : Char → Bool} (h : c.rest = s ++ rest) (hs : ∀ x ∈ s, p x = true)
    (hr : Stops p rest) : c.run p = (s, c.advance s.length) := by
  rw [run, h, hr.takeWhile hs]

theorem skipWhile_eq {p : Char → Bool} (h : c.rest = s ++ rest) (hs : ∀ x ∈ s, p x = true)
    (hr : Stops p rest) : c.skipWhile p = c.advance s.length := by
  rw [skipWhile, h, hr.takeWhile hs]

theorem eat?_eq (h : c.rest = s ++ rest) : c.eat? s = some (c.advance s.length) := by
  rw [eat?, h, if_pos (by simp)]

theorem eat?_eq_some_iff : c.eat? s = some c' ↔ (∃ rest, c.rest = s ++ rest) ∧
    c' = c.advance s.length := by
  rw [eat?]
  split
  case isTrue h =>
    obtain ⟨rest, hr⟩ := List.isPrefixOf_iff_prefix.mp h
    simp [← hr, eq_comm]
  case isFalse h =>
    refine iff_of_false (by simp) ?_
    rintro ⟨⟨rest, hr⟩, -⟩
    exact h (by simp [hr])

theorem eat?_char {x : Char} (h : c.rest = x :: rest) : c.eat? [x] = some (c.advance 1) :=
  eat?_eq h

theorem eat?_char_eq_none {x : Char} (h : Stops (· == x) c.rest) : c.eat? [x] = none := by
  by_contra hne
  obtain ⟨c', hc⟩ := Option.ne_none_iff_exists'.mp hne
  obtain ⟨⟨rest, hr⟩, -⟩ := eat?_eq_some_iff.mp hc
  simp [hr] at h

end Cursor

namespace Reader

variable {α β ι : Type} {between : Cursor → Cursor}

/-! ### What a reader takes -/

/-- Wherever `text` stands with `rest` behind it, the reader moves past `text` and yields a value
with `P`. -/
def Takes (read : Reader α) (text rest : List Char) (P : α → Prop) : Prop :=
  ∀ c : Cursor, c.rest = text ++ rest → ∃ a, read c = some (a, c.advance text.length) ∧ P a

/-- Wherever `rest` stands, the reader fails. -/
def Refuses (read : Reader α) (rest : List Char) : Prop :=
  ∀ c : Cursor, c.rest = rest → read c = none

/-- Before a text that the class stops at, `between` moves past `blank` and no further. -/
def Skips (between : Cursor → Cursor) (blank : List Char) (p : Char → Bool) : Prop :=
  ∀ (c : Cursor) (rest : List Char), c.rest = blank ++ rest → Stops p rest →
    between c = c.advance blank.length

theorem Skips.stay {p : Char → Bool} {c : Cursor} (h : Skips between [] p)
    (hc : Stops p c.rest) : between c = c := by
  rw [h c c.rest rfl hc, List.length_nil, Cursor.advance_zero]

/-- A loop that finds one item after the other and then nothing. -/
theorem manyWithin_takes {read : Reader α} {text : ι → List Char} {P : ι → α → Prop}
    {Q : List Char → Prop} {rest : List Char} (hrest : Q rest)
    (stop : Refuses (fun c => read (between c)) rest) :
    ∀ {items : List ι}, (∀ i ∈ items, text i ≠ []) →
      (∀ i ∈ items, ∀ after, Q after → Q (text i ++ after) ∧
        Takes (fun c => read (between c)) (text i) after (P i)) →
      ∀ (bound : List Char) (c : Cursor), c.rest = items.flatMap text ++ rest →
        c.rest.length ≤ bound.length →
        ∃ as, manyWithin between read bound c = (as, c.advance (items.flatMap text).length) ∧
          List.Forall₂ P items as := by
  intro items ne step
  induction items with
  | nil =>
      intro bound c hc hb
      refine ⟨[], ?_, .nil⟩
      rw [List.flatMap_nil, List.length_nil, Cursor.advance_zero]
      cases bound with
      | nil => rfl
      | cons _ bound => simp only [manyWithin, stop c (by simpa using hc)]
  | cons i items ih =>
      intro bound c hc hb
      -- whatever is left of the items may stand behind an item
      have follow : ∀ {js : List ι}, (∀ j ∈ js, j ∈ i :: items) →
          Q (js.flatMap text ++ rest) := by
        intro js hjs
        induction js with
        | nil => exact hrest
        | cons j js ihj =>
            rw [List.flatMap_cons, List.append_assoc]
            exact (step j (hjs j (by simp)) _ (ihj fun k hk => hjs k (by simp [hk]))).1
      rw [List.flatMap_cons, List.append_assoc] at hc
      obtain ⟨a, ha, hP⟩ := (step i (by simp) _ (follow fun j hj => by simp [hj])).2 c hc
      have hpos : 0 < (text i).length := List.length_pos_iff.mpr (ne i (by simp))
      cases bound with
      | nil =>
          simp only [hc, List.length_append, List.length_nil] at hb
          omega
      | cons _ bound =>
          have hr := Cursor.rest_advance_length hc
          obtain ⟨as, has, hF⟩ := ih (fun j hj => ne j (by simp [hj]))
            (fun j hj => step j (by simp [hj])) bound (c.advance (text i).length) hr (by
              rw [hr]
              simp only [hc, List.length_append, List.length_cons] at hb ⊢
              omega)
          refine ⟨a :: as, ?_, .cons hP hF⟩
          simp only [manyWithin, ha, has, Cursor.advance_advance, List.flatMap_cons,
            List.length_append]

theorem many_takes (between : Cursor → Cursor) (read : Reader α) (text : ι → List Char)
    {P : ι → α → Prop} {Q : List Char → Prop} {rest : List Char} {items : List ι}
    (hrest : Q rest) (stop : Refuses (fun c => read (between c)) rest)
    (ne : ∀ i ∈ items, text i ≠ [])
    (step : ∀ i ∈ items, ∀ after, Q after → Q (text i ++ after) ∧
      Takes (fun c => read (between c)) (text i) after (P i))
    {c : Cursor} (hc : c.rest = items.flatMap text ++ rest) :
    ∃ as, many between read c = (as, c.advance (items.flatMap text).length) ∧
      List.Forall₂ P items as :=
  manyWithin_takes hrest stop ne step c.rest c hc (Nat.le_refl _)

theorem map_eq_map_of_forall₂ {f : α → β} {g : ι → β} {is : List ι} {as : List α}
    (h : List.Forall₂ (fun i a => f a = g i) is as) : as.map f = is.map g := by
  induction h with
  | nil => rfl
  | cons h _ ih => rw [List.map_cons, List.map_cons, h, ih]

/-! ### Lists in brackets -/

/-- How a list is set out: its brackets, the blanks behind the opening one, behind each comma and
before the closing one, and whether a comma follows the last item. -/
structure ListStyle where
  opening : Char
  closing : Char
  lead    : List Char
  sep     : List Char
  trail   : List Char
  comma   : Bool

namespace ListStyle

/-- What stands behind the last item. -/
def tail (s : ListStyle) : List Char :=
  (if s.comma then [','] else []) ++ s.trail ++ [s.closing]

/-- The text of a list whose items have the given texts. -/
def text (s : ListStyle) : List (List Char) → List Char
  | []      => [s.opening, s.closing]
  | t :: ts => s.opening :: (s.lead ++ t ++ ts.flatMap (fun t => ',' :: (s.sep ++ t)) ++ s.tail)

theorem text_eq_cons (s : ListStyle) (ts : List (List Char)) :
    ∃ rest, s.text ts = s.opening :: rest := by
  cases ts with
  | nil => exact ⟨_, rfl⟩
  | cons t ts => exact ⟨_, rfl⟩

/-- `between` passes over the blanks of the list, and `p` tells where they may begin. -/
structure Fits (s : ListStyle) (between : Cursor → Cursor) (p : Char → Bool) : Prop where
  stay    : Skips between [] p
  lead    : Skips between s.lead p
  sep     : Skips between s.sep p
  trail   : Skips between s.trail p
  comma   : p ',' = false
  closing : p s.closing = false
  ne      : s.closing ≠ ','

end ListStyle

section Listed

variable {s : ListStyle} {p : Char → Bool} {item : Reader α} {rest : List Char}

/-- Behind the last item no further one is found. -/
theorem ListStyle.Fits.stop (fits : s.Fits between p) (none : Refuses item (s.closing :: rest)) :
    Refuses (fun c => (between c).eat? [','] >>= fun c => item (between c)) (s.tail ++ rest) := by
  intro c hc
  by_cases hk : s.comma = true
  · have h₁ : c.rest = ',' :: (s.trail ++ s.closing :: rest) := by simp [hc, ListStyle.tail, hk]
    have h₂ : (c.advance 1).rest = s.trail ++ s.closing :: rest := by simp [h₁]
    have h₃ := fits.trail _ _ h₂ (by simp [fits.closing])
    show ((between c).eat? [','] >>= fun c => item (between c)) = Option.none
    rw [fits.stay.stay (by simp [h₁, fits.comma]), Cursor.eat?_char h₁]
    show item (between (c.advance 1)) = Option.none
    rw [h₃, none _ (Cursor.rest_advance_length h₂)]
  · have h₁ : c.rest = s.trail ++ s.closing :: rest := by simp [hc, ListStyle.tail, hk]
    show ((between c).eat? [','] >>= fun c => item (between c)) = Option.none
    rw [fits.trail _ _ h₁ (by simp [fits.closing]), Cursor.eat?_char_eq_none]
    · rfl
    · rw [Cursor.rest_advance_length h₁]
      simpa using fits.ne

/-- Behind the last item the list is closed, with or without a comma. -/
theorem ListStyle.Fits.close (fits : s.Fits between p) {c : Cursor} (hc : c.rest = s.tail ++ rest) :
    (between (((between c).eat? [',']).getD c)).eat? [s.closing] =
      some (c.advance s.tail.length) := by
  by_cases hk : s.comma = true
  · have h₁ : c.rest = ',' :: (s.trail ++ s.closing :: rest) := by simp [hc, ListStyle.tail, hk]
    have h₂ : (c.advance 1).rest = s.trail ++ s.closing :: rest := by simp [h₁]
    have h₃ : between c = c := fits.stay.stay (by simp [h₁, fits.comma])
    rw [h₃, Cursor.eat?_char h₁, Option.getD_some, fits.trail _ _ h₂ (by simp [fits.closing]),
      Cursor.eat?_char (Cursor.rest_advance_length h₂), Cursor.advance_advance,
      Cursor.advance_advance]
    congr 2
    simp only [ListStyle.tail, hk, if_true, List.length_append, List.length_cons, List.length_nil]
    omega
  · have h₁ : c.rest = s.trail ++ s.closing :: rest := by simp [hc, ListStyle.tail, hk]
    have h₂ : between c = c.advance s.trail.length := fits.trail _ _ h₁ (by simp [fits.closing])
    have h₃ : (c.advance s.trail.length).eat? [','] = none := Cursor.eat?_char_eq_none (by
      rw [Cursor.rest_advance_length h₁]
      simpa using fits.ne)
    rw [h₂, h₃, Option.getD_none, h₂, Cursor.eat?_char (Cursor.rest_advance_length h₁),
      Cursor.advance_advance]
    simp [ListStyle.tail, hk]

/-- A comma and an item behind it. -/
theorem ListStyle.Fits.comma_takes (fits : s.Fits between p) {t after : List Char} {P : α → Prop}
    (ne : t ≠ []) (clear : Stops p t) (h : Takes item t after P) :
    Takes (fun c => (between c).eat? [','] >>= fun c => item (between c)) (',' :: (s.sep ++ t))
      after P := by
  intro c hc
  have h₁ : between c = c := fits.stay.stay (by simp [hc, fits.comma])
  have h₂ : (c.advance 1).rest = s.sep ++ (t ++ after) := by simp [hc]
  have h₃ := fits.sep _ _ h₂ (clear.append_of_ne_nil after ne)
  obtain ⟨a, ha, hP⟩ := h _ (Cursor.rest_advance_length h₂)
  refine ⟨a, ?_, hP⟩
  show ((between c).eat? [','] >>= fun c => item (between c)) = _
  rw [h₁, Cursor.eat?_char hc]
  show item (between (c.advance 1)) = _
  rw [h₃, ha, Cursor.advance_advance, Cursor.advance_advance]
  congr 3
  simp only [List.length_cons, List.length_append]
  omega

/-- **A list in brackets is read item by item.**  `q` tells how an item could go on. -/
theorem listed_takes (fits : s.Fits between p) (item : Reader α) (text : ι → List Char)
    {items : List ι}
    {P : ι → α → Prop} {q : Char → Bool} (comma : q ',' = false) (tail : Stops q (s.tail ++ rest))
    (ne : ∀ i ∈ items, text i ≠ [] ∧ Stops p (text i))
    (step : ∀ i ∈ items, ∀ after, Stops q after → Takes item (text i) after (P i))
    (none : Refuses item (s.closing :: rest)) :
    Takes (listed between s.opening s.closing item) (s.text (items.map text)) rest
      (List.Forall₂ P items) := by
  intro c hc
  cases items with
  | nil =>
      have h₁ : c.rest = s.opening :: (s.closing :: rest) := by simpa [ListStyle.text] using hc
      have h₂ : (c.advance 1).rest = s.closing :: rest := by simp [h₁]
      refine ⟨[], ?_, .nil⟩
      have h₃ : between (c.advance 1) = c.advance 1 :=
        fits.stay.stay (by rw [h₂]; simp [fits.closing])
      simp only [listed, Cursor.eat?_char h₁, Option.bind_eq_bind, Option.bind_some, h₃,
        none _ h₂, Cursor.eat?_char h₂, Cursor.advance_advance, List.map_nil, ListStyle.text,
        List.length_cons, List.length_nil]
  | cons i is =>
      have h₁ : c.rest = s.opening :: (s.lead ++ (text i ++
          ((is.flatMap fun j => ',' :: (s.sep ++ text j)) ++ (s.tail ++ rest)))) := by
        simpa [ListStyle.text, List.flatMap_map] using hc
      have h₂ : (c.advance 1).rest = s.lead ++ (text i ++
          ((is.flatMap fun j => ',' :: (s.sep ++ text j)) ++ (s.tail ++ rest))) := by simp [h₁]
      have h₃ := fits.lead _ _ h₂ ((ne i (by simp)).2.append_of_ne_nil _ (ne i (by simp)).1)
      -- what follows the first item is a comma or the end of the list
      have follow : Stops q
          ((is.flatMap fun j => ',' :: (s.sep ++ text j)) ++ (s.tail ++ rest)) := by
        cases is with
        | nil => simpa using tail
        | cons j js => simp [comma]
      obtain ⟨a, ha, hP⟩ := step i (by simp) _ follow _ (Cursor.rest_advance_length h₂)
      obtain ⟨as, has, hF⟩ := many_takes between
        (fun c => c.eat? [','] >>= fun c => item (between c)) (fun j => ',' :: (s.sep ++ text j))
        tail (fits.stop none) (by simp)
        (fun j hj after hafter => ⟨by simp [comma], fits.comma_takes (ne j (by simp [hj])).1
          (ne j (by simp [hj])).2 (step j (by simp [hj]) after hafter)⟩)
        (Cursor.rest_advance_length (Cursor.rest_advance_length h₂))
      have h₄ := fits.close (Cursor.rest_advance_length
        (Cursor.rest_advance_length (Cursor.rest_advance_length h₂)))
      refine ⟨a :: as, ?_, .cons hP hF⟩
      simp only [listed, Cursor.eat?_char h₁, Option.bind_eq_bind, Option.bind_some, h₃, ha]
      simp only [Option.bind_eq_bind] at has
      simp only [has, h₄, Option.bind_some]
      simp only [Cursor.advance_advance]
      congr 3
      simp only [ListStyle.text, List.map_cons, List.flatMap_map, List.length_cons,
        List.length_append]
      omega

end Listed

/-! ### What a reader yields -/

/-- Every value of the reader has `P`. -/
def Yields (read : Reader α) (P : α → Prop) : Prop :=
  ∀ ⦃c : Cursor⦄ ⦃a : α⦄ ⦃c' : Cursor⦄, read c = some (a, c') → P a

section Yields

variable {read item : Reader α} {P : α → Prop}

theorem manyWithin_yields (h : Yields read P) : ∀ (bound : List Char) (c : Cursor),
    ∀ a ∈ (manyWithin between read bound c).1, P a
  | [],         _ => by simp [manyWithin]
  | _ :: bound, c => by
      cases hr : read (between c) with
      | none => simp [manyWithin, hr]
      | some ac =>
          intro a ha
          simp only [manyWithin, hr, List.mem_cons] at ha
          rcases ha with rfl | ha
          · exact h hr
          · exact manyWithin_yields h bound ac.2 a ha

theorem many_yields (h : Yields read P) (c : Cursor) : ∀ a ∈ (many between read c).1, P a :=
  manyWithin_yields h c.rest c

theorem listed_yields {opening closing : Char} (h : Yields item P) :
    Yields (listed between opening closing item) (fun as => ∀ a ∈ as, P a) := by
  intro c as c' hc
  simp only [listed, Option.bind_eq_bind, Option.bind_eq_some_iff] at hc
  obtain ⟨c₁, -, hc⟩ := hc
  cases hi : item (between c₁) with
  | none =>
      simp only [hi, Option.bind_eq_some_iff, Option.some.injEq, Prod.mk.injEq] at hc
      obtain ⟨_, -, rfl, -⟩ := hc
      simp
  | some ac =>
      simp only [hi, Option.bind_eq_some_iff, Option.some.injEq, Prod.mk.injEq] at hc
      obtain ⟨_, -, rfl, -⟩ := hc
      refine List.forall_mem_cons.mpr ⟨h hi, many_yields (fun c a c' hr => ?_) _⟩
      obtain ⟨_, -, hr⟩ := Option.bind_eq_some_iff.mp hr
      exact h hr

end Yields

end Reader

end SchemaEnums.Text
