import SchemaEnums.Proofs.Schema.Words
import SchemaEnums.Proofs.Text.Passing

/-!
# Schema — Gaps

What may stand between words, and how lists are set out.

On a line that is `IsBlank`, spaces and a comment, and inside brackets `IsGap`, line breaks too.  A
comment runs up to its line break, so where a word follows on the line there were spaces only.
`Listed` is a list in brackets, with gaps around its commas and one more comma behind the last item
or none.

For each of them there are two statements: what `skip`, `gap` and `listed` pass is of that form
(`skip_spells`, `gap_spells`, `listed_spells`), and whatever is of that form they pass
(`skip_blank`, `gap_reads`, `listed_reads`).  A list's items are followed by what ends a value
(`EndsValue`).
-/

namespace SchemaEnums.Schema
open Text Text.Reader Grammar Literal

/-! ### Blanks -/

/-- Spaces and tabs. -/
def IsSpaces (s : List Char) : Prop := ∀ x ∈ s, isSpace x = true

theorem isSpaces_nil : IsSpaces [] := by simp [IsSpaces]

/-- Spaces, and a comment behind them or none. -/
inductive IsBlank : List Char → Prop where
  | spaces {s : List Char} (h : IsSpaces s) : IsBlank s
  | comment {s t : List Char} (h : IsSpaces s) (ht : ∀ x ∈ t, isLineBreak x = false) :
      IsBlank (s ++ '/' :: '/' :: t)

/-- The text is over, or a line break comes next. -/
def AtBreak (text : List Char) : Prop := Stops (!isLineBreak ·) text

theorem opensSkip_of_isLineBreak {x : Char} (h : isLineBreak x = true) : opensSkip x = false := by
  simp only [isLineBreak, Bool.or_eq_true, beq_iff_eq] at h
  rcases h with rfl | rfl <;> rfl

theorem atBreak_cons {x : Char} (h : isLineBreak x = true) (text : List Char) :
    AtBreak (x :: text) := .cons (by simp [h])

theorem AtBreak.stops_skip {text : List Char} (h : AtBreak text) : Stops opensSkip text :=
  h.mono fun x hx => by
    by_contra hbreak
    rw [opensSkip_of_isLineBreak (by simpa using hbreak)] at hx
    cases hx

theorem skip_spaces {s : List Char} (h : IsSpaces s) {c c' : Cursor} (hp : c.Passes s c')
    (hr : Stops opensSkip c'.rest) : skip c = c' :=
  (skip_skips s h c c'.rest hp.rest hr).trans hp.moved.symm

theorem skip_blank {s : List Char} (h : IsBlank s) {c c' : Cursor} (hp : c.Passes s c')
    (hr : AtBreak c'.rest) : skip c = c' := by
  cases h with
  | spaces h => exact skip_spaces h hp hr.stops_skip
  | @comment s t h ht =>
      obtain ⟨c₁, hp₁, hp₂⟩ := hp.split
      have h₁ : c.skipWhile isSpace = c₁ := by
        rw [Cursor.skipWhile_eq hp₁.rest h (by rw [hp₂.rest]; exact .cons rfl), hp₁.moved]
      have h₂ : c₁.skipWhile (!isLineBreak ·) = c' := by
        rw [Cursor.skipWhile_eq hp₂.rest (List.forall_mem_cons.mpr ⟨rfl, List.forall_mem_cons.mpr
          ⟨rfl, fun x hx => by rw [ht x hx]; rfl⟩⟩) hr, hp₂.moved]
      have hc₁ : c₁.rest = '/' :: '/' :: (t ++ c'.rest) := hp₂.rest
      simp only [skip, h₁, hc₁, h₂]

theorem skip_spells (c : Cursor) : ∃ s, c.Passes s (skip c) ∧
    (IsSpaces s ∨ IsBlank s ∧ AtBreak (skip c).rest) := by
  have hspaces : IsSpaces (c.rest.takeWhile isSpace) := List.all_eq_true.mp List.all_takeWhile
  have hpasses := c.skipWhile_passes isSpace
  rw [skip]
  split
  case h_1 rest hc =>
    refine ⟨_, hpasses.trans (Cursor.skipWhile_passes _ _), .inr ⟨?_, Cursor.skipWhile_stops _ _⟩⟩
    rw [hc, List.takeWhile_cons_of_pos rfl, List.takeWhile_cons_of_pos rfl]
    refine .comment hspaces fun x hx => ?_
    have hall := List.all_eq_true.mp List.all_takeWhile x hx
    simpa using hall
  case h_2 => exact ⟨_, hpasses, .inl hspaces⟩

theorem skip_skip (c : Cursor) : skip (skip c) = skip c := by
  have hstops := c.skipWhile_stops isSpace
  have hagain : (c.skipWhile isSpace).skipWhile isSpace = c.skipWhile isSpace := by
    rw [Cursor.skipWhile_eq (s := []) rfl (by simp) hstops]
    exact Cursor.advance_zero _
  by_cases hcomment : ∃ rest, (c.skipWhile isSpace).rest = '/' :: '/' :: rest
  · obtain ⟨rest, hrest⟩ := hcomment
    have hskip : skip c = (c.skipWhile isSpace).skipWhile (!isLineBreak ·) := by
      simp only [skip, hrest]
    rw [hskip]
    exact skip_blank (.spaces isSpaces_nil) (.refl _) (Cursor.skipWhile_stops _ _)
  · have hskip : ∀ d : Cursor, d.skipWhile isSpace = c.skipWhile isSpace →
        skip d = c.skipWhile isSpace := by
      intro d hd
      rw [skip, hd]
      split
      case h_1 rest hrest => exact absurd ⟨rest, hrest⟩ hcomment
      case h_2 => rfl
    rw [hskip c rfl, hskip _ hagain]

theorem skip_length (c : Cursor) : (skip c).rest.length ≤ c.rest.length := by
  obtain ⟨s, hs, -⟩ := skip_spells c
  have := hs.length
  omega

/-- Where a blank was passed and the line goes on, there were spaces only. -/
theorem skip_spells_spaces {c : Cursor} (h : ¬ AtBreak (skip c).rest) :
    ∃ s, IsSpaces s ∧ c.Passes s (skip c) := by
  obtain ⟨s, hs, hspaces | ⟨-, hbreak⟩⟩ := skip_spells c
  · exact ⟨s, hspaces, hs⟩
  · exact absurd hbreak h

theorem skip_spells_blank (c : Cursor) : ∃ s, IsBlank s ∧ c.Passes s (skip c) := by
  obtain ⟨s, hs, hspaces | ⟨hblank, -⟩⟩ := skip_spells c
  · exact ⟨s, .spaces hspaces, hs⟩
  · exact ⟨s, hblank, hs⟩

/-! ### Line breaks -/

/-- A line break is one character, or a second behind it that is a line feed. -/
theorem lineBreak_eq_some {c c' : Cursor} (h : lineBreak c = some ((), c')) :
    ∃ x t, isLineBreak x = true ∧ (t = [] ∨ t = ['\n']) ∧ c.Passes (x :: t) c' := by
  rw [lineBreak] at h
  split at h
  case h_1 rest hc =>
    cases h
    exact ⟨'\r', ['\n'], rfl, .inr rfl, Cursor.passes_advance (t := ['\r', '\n']) hc⟩
  case h_2 x rest _ hc =>
    split at h
    case isTrue hx =>
      cases h
      exact ⟨x, [], hx, .inl rfl, Cursor.passes_advance (t := [x]) hc⟩
    case isFalse => cases h
  case h_3 => cases h

theorem lineBreak_length {c c' : Cursor} (h : lineBreak c = some ((), c')) :
    c'.rest.length < c.rest.length := by
  obtain ⟨x, t, -, -, hp⟩ := lineBreak_eq_some h
  have := hp.length
  rw [List.length_cons] at this
  omega

/-- At a line break one character is passed, or the two of a line feed behind a carriage return. -/
theorem lineBreak_of_passes {c c₁ : Cursor} {x : Char} (hx : isLineBreak x = true)
    (hp : c.Passes [x] c₁) :
    lineBreak c = some ((), c₁) ∨
      ∃ c₂, c₁.Passes ['\n'] c₂ ∧ lineBreak c = some ((), c₂) := by
  have hc : c.rest = x :: c₁.rest := hp.rest
  rw [lineBreak]
  split
  case h_1 tail hc' =>
    obtain ⟨rfl, htail⟩ := List.cons.inj (hc.symm.trans hc')
    have hp₂ : c.Passes (['\r'] ++ ['\n']) (c.advance 2) := Cursor.passes_advance hc'
    obtain ⟨c₁', h₁, h₂⟩ := hp₂.split
    obtain rfl : c₁' = c₁ := h₁.moved.trans hp.moved.symm
    exact .inr ⟨_, h₂, rfl⟩
  case h_2 y tail _ hc' =>
    obtain ⟨rfl, -⟩ := List.cons.inj (hc.symm.trans hc')
    exact .inl (by rw [if_pos hx, hp.moved]; rfl)
  case h_3 hc' =>
    rw [hc] at hc'
    cases hc'

/-- What goes on behind line breaks goes on alike behind the first character of one, whether or not
a second follows. -/
theorem eq_behind_lineBreak {β : Type} {f : Cursor → β}
    (hf : ∀ {d d' : Cursor} {y : Char} {rest : List Char}, isLineBreak y = true →
      d.rest = y :: rest → lineBreak d = some ((), d') → f d = f d')
    {c c₁ : Cursor} {x : Char} (hx : isLineBreak x = true) (hp : c.Passes [x] c₁) :
    f c = f c₁ := by
  rcases lineBreak_of_passes hx hp with h₁ | ⟨c₂, hp₂, h₁⟩
  · exact hf hx hp.rest h₁
  · have h₂ : lineBreak c₁ = some ((), c₂) := by
      rw [lineBreak_of_lineFeed hp₂.rest, ← hp₂.moved]
    rw [hf hx hp.rest h₁, hf rfl hp₂.rest h₂]

theorem stops_of_lineBreak_eq_none {c : Cursor} (h : lineBreak c = none) :
    Stops isLineBreak c.rest := by
  cases hc : c.rest with
  | nil => exact stops_nil
  | cons x rest =>
      rw [stops_cons]
      by_contra hx
      obtain ⟨c₁, hp, -⟩ := Cursor.exists_passes (t := [x]) hc
      rcases lineBreak_of_passes (by simpa using hx) hp with h' | ⟨_, -, h'⟩ <;>
        rw [h] at h' <;> cases h'

theorem lineBreak_getsOn : GetsOn skip lineBreak := fun c _ _ h =>
  Nat.lt_of_lt_of_le (lineBreak_length h) (skip_length c)

/-! ### Gaps -/

/-- Blanks and line breaks, and spaces at the end. -/
inductive IsGap : List Char → Prop where
  | spaces {s : List Char} (h : IsSpaces s) : IsGap s
  | line {s g : List Char} {x : Char} (hs : IsBlank s) (hx : isLineBreak x = true) (hg : IsGap g) :
      IsGap (s ++ x :: g)

theorem IsGap.behind_break {t g : List Char} (ht : t = [] ∨ t = ['\n']) (hg : IsGap g) :
    IsGap (t ++ g) := by
  rcases ht with rfl | rfl
  · exact hg
  · exact .line (s := []) (.spaces isSpaces_nil) rfl hg

theorem gap_of_none {c : Cursor} (h : lineBreak (skip c) = none) : gap c = skip c := by
  rw [gap, many_of_none h]

theorem gap_of_some {c c' : Cursor} (h : lineBreak (skip c) = some ((), c')) : gap c = gap c' := by
  rw [gap, many_of_some lineBreak_getsOn h, gap]

theorem gap_skip (c : Cursor) : gap (skip c) = gap c := by
  cases h : lineBreak (skip c) with
  | none => rw [gap_of_none h, gap_of_none (by rw [skip_skip, h]), skip_skip]
  | some r => rw [gap_of_some h, gap_of_some (by rw [skip_skip, h])]

theorem gap_lineBreak {c c₁ : Cursor} {x : Char} (hx : isLineBreak x = true)
    (hp : c.Passes [x] c₁) : gap c = gap c₁ :=
  eq_behind_lineBreak (fun hy hd hd' => gap_of_some (by
    rw [skip_eq_self (by rw [hd]; exact .cons (opensSkip_of_isLineBreak hy)), hd'])) hx hp

theorem gap_reads {g : List Char} (h : IsGap g) {c c' : Cursor} (hp : c.Passes g c')
    (hr : Stops opensGap c'.rest) : gap c = c' := by
  induction h generalizing c with
  | spaces h => rw [gap_skips _ h c c'.rest hp.rest hr, hp.moved]
  | @line s g x hs hx _ ih =>
      obtain ⟨c₁, hp₁, hp⟩ := hp.split
      obtain ⟨c₂, hp₂, hp⟩ := hp.split_cons
      rw [← gap_skip, skip_blank hs hp₁ (by rw [hp₂.rest]; exact atBreak_cons hx _),
        gap_lineBreak hx hp₂, ih hp]

/-- What `gap` passes is a gap, if anything follows it. -/
theorem gap_spells (c : Cursor) (h : (gap c).rest ≠ []) : ∃ g, IsGap g ∧ c.Passes g (gap c) := by
  induction hn : c.rest.length using Nat.strongRecOn generalizing c with
  | ind n ih =>
      subst hn
      obtain ⟨s, hblank, hs⟩ := skip_spells_blank c
      cases hbreak : lineBreak (skip c) with
      | none =>
          rw [gap_of_none hbreak] at h ⊢
          obtain ⟨s, hs, hpasses⟩ := skip_spells_spaces (c := c) fun hat => by
            have hstops := stops_of_lineBreak_eq_none hbreak
            cases hrest : (skip c).rest with
            | nil => exact h hrest
            | cons x rest =>
                rw [hrest, stops_cons] at hstops
                rw [hrest, AtBreak, stops_cons, hstops] at hat
                cases hat
          exact ⟨s, .spaces hs, hpasses⟩
      | some r =>
          obtain ⟨⟨⟩, c'⟩ := r
          have hlt := lineBreak_getsOn hbreak
          rw [gap_of_some hbreak] at h ⊢
          obtain ⟨g, hg, hpasses⟩ := ih _ hlt c' h rfl
          obtain ⟨x, t, hx, ht, hp⟩ := lineBreak_eq_some hbreak
          exact ⟨s ++ ((x :: t) ++ g), .line hblank hx (hg.behind_break ht),
            hs.trans (hp.trans hpasses)⟩

theorem gap_length (c : Cursor) : (gap c).rest.length ≤ c.rest.length := by
  obtain ⟨_, -, -, hpasses, -⟩ := many_spells (S := fun _ _ => True) lineBreak_getsOn
    (fun c a c' h => by
      obtain ⟨s, -, hs⟩ := skip_spells_blank c
      obtain ⟨x, t, -, -, hp⟩ := lineBreak_eq_some h
      exact ⟨_, hs.trans hp, trivial⟩) c
  have h₁ := hpasses.length
  have h₂ := skip_length (many skip lineBreak c).2
  rw [gap]
  omega

/-! ### What ends a value -/

/-- The text cannot go on with a value that stands before it: no character of a word comes next,
and behind blanks neither a parenthesis opens nor a colon stands. -/
def EndsValue (after : List Char) : Prop :=
  Stops extendsPath after ∧ ∀ p, Stops (fun x => x == '(' || x == ':') (skip ⟨p, after⟩).rest

theorem IsSpaces.head {s : List Char} (h : IsSpaces s) :
    s = [] ∨ ∃ x t, s = x :: t ∧ isSpace x = true := by
  cases s with
  | nil => exact .inl rfl
  | cons x t => exact .inr ⟨x, t, rfl, h x (by simp)⟩

theorem IsBlank.head {s : List Char} (h : IsBlank s) :
    s = [] ∨ ∃ x t, s = x :: t ∧ opensSkip x = true := by
  cases h with
  | spaces h => exact h.head.imp_right fun ⟨x, t, hs, hx⟩ => ⟨x, t, hs, by simp [opensSkip, hx]⟩
  | @comment s t h ht =>
      rcases h.head with rfl | ⟨x, u, rfl, hx⟩
      · exact .inr ⟨'/', _, rfl, rfl⟩
      · exact .inr ⟨x, _, rfl, by simp [opensSkip, hx]⟩

theorem opensGap_of_opensSkip {x : Char} (h : opensSkip x = true) : opensGap x = true := by
  simp only [opensSkip, opensGap] at h ⊢
  simp [h]

theorem opensGap_of_isLineBreak {x : Char} (h : isLineBreak x = true) : opensGap x = true := by
  simp [opensGap, h]

theorem IsGap.head {g : List Char} (h : IsGap g) :
    g = [] ∨ ∃ x t, g = x :: t ∧ opensGap x = true := by
  cases h with
  | spaces h =>
      exact (IsBlank.spaces h).head.imp_right
        fun ⟨x, t, hs, hx⟩ => ⟨x, t, hs, opensGap_of_opensSkip hx⟩
  | @line s g x hs hx hg =>
      rcases hs.head with rfl | ⟨y, u, rfl, hy⟩
      · exact .inr ⟨x, g, rfl, opensGap_of_isLineBreak hx⟩
      · exact .inr ⟨y, _, rfl, opensGap_of_opensSkip hy⟩

/-- A class without the characters of gaps stops at a gap, where it stops behind it. -/
theorem IsGap.stops {g rest : List Char} (h : IsGap g) {p : Char → Bool}
    (hp : ∀ x, opensGap x = true → p x = false) (hr : Stops p rest) : Stops p (g ++ rest) := by
  rcases h.head with rfl | ⟨x, t, rfl, hx⟩
  · exact hr
  · exact .cons (hp x hx)

theorem extendsPath_of_opensGap {x : Char} (h : opensGap x = true) : extendsPath x = false := by
  simp only [opensGap, isSpace, isLineBreak, Bool.or_eq_true, beq_iff_eq] at h
  rcases h with ((rfl | rfl) | rfl) | rfl | rfl <;> rfl

theorem IsGap.endsValue {g rest : List Char} (h : IsGap g) {x : Char}
    (hx : x = ',' ∨ x = ')' ∨ x = ']') : EndsValue (g ++ x :: rest) := by
  have hclear : extendsPath x = false ∧ opensSkip x = false ∧ (x == '(' || x == ':') = false := by
    rcases hx with rfl | rfl | rfl <;> decide
  refine ⟨h.stops (fun _ => extendsPath_of_opensGap) (.cons hclear.1), fun p => ?_⟩
  cases h with
  | spaces h =>
      obtain ⟨c', hp, hrest⟩ := Cursor.exists_passes (c := ⟨p, _⟩) rfl
      rw [skip_spaces h hp (by rw [hrest]; exact .cons hclear.2.1), hrest]
      exact .cons hclear.2.2
  | @line s g y hs hy hg =>
      obtain ⟨c', hp, hrest⟩ := Cursor.exists_passes (c := ⟨p, _⟩) (List.append_assoc s _ _)
      rw [skip_blank hs hp (by rw [hrest]; exact atBreak_cons hy _), hrest]
      simp only [isLineBreak, Bool.or_eq_true, beq_iff_eq] at hy
      rcases hy with rfl | rfl <;> exact .cons rfl

/-! ### Lists -/

/-- What stands behind an item of a list: further items behind commas, a last comma or none, and
the closing bracket. -/
inductive ListTail (closing : Char) : List (List Char) → List Char → Prop where
  | close {g : List Char} (hg : IsGap g) : ListTail closing [] (g ++ [closing])
  | comma {g g' : List Char} (hg : IsGap g) (hg' : IsGap g') :
      ListTail closing [] (g ++ ',' :: (g' ++ [closing]))
  | item {g g' t u : List Char} {ts : List (List Char)} (hg : IsGap g) (hg' : IsGap g')
      (h : ListTail closing ts u) : ListTail closing (t :: ts) (g ++ ',' :: (g' ++ (t ++ u)))

/-- A list in brackets whose items have the given texts. -/
inductive Listed (opening closing : Char) : List (List Char) → List Char → Prop where
  | empty {g : List Char} (hg : IsGap g) : Listed opening closing [] (opening :: (g ++ [closing]))
  | items {g t u : List Char} {ts : List (List Char)} (hg : IsGap g)
      (h : ListTail closing ts u) : Listed opening closing (t :: ts) (opening :: (g ++ (t ++ u)))

/-- What stands behind the first item of a canonical list. -/
def tailText (closing : Char) (ts : List (List Char)) : List Char :=
  ts.flatMap (fun t => ',' :: ' ' :: t) ++ [closing]

theorem bracketStyle_text_cons (opening closing : Char) (t : List Char) (ts : List (List Char)) :
    (bracketStyle opening closing).text (t :: ts) = opening :: (t ++ tailText closing ts) := by
  simp [bracketStyle, ListStyle.text, ListStyle.tail, tailText]

theorem ListTail.endsValue {closing : Char} (hclosing : closing = ')' ∨ closing = ']')
    {ts : List (List Char)} {u : List Char} (h : ListTail closing ts u) (rest : List Char) :
    EndsValue (u ++ rest) := by
  cases h with
  | close hg => rw [List.append_assoc]; exact hg.endsValue (.inr hclosing)
  | comma hg hg' => rw [List.append_assoc]; exact hg.endsValue (.inl rfl)
  | item hg hg' h => rw [List.append_assoc]; exact hg.endsValue (.inl rfl)

section Lists

variable {α ι : Type} {item : Reader α} {opening closing : Char}

/-- A comma and an item behind it. -/
def afterComma (item : Reader α) : Reader α := fun c => c.eat? [','] >>= fun c => item (gap c)

theorem afterComma_getsOn {S : Position → α → List Char → Prop} (h : Spells item S) :
    GetsOn gap (afterComma item) := by
  intro c a c' hc
  obtain ⟨c₁, hcomma, hitem⟩ := Option.bind_eq_some_iff.mp hc
  obtain ⟨t, ht, -⟩ := h hitem
  have h₁ := (Cursor.eat?_passes hcomma).length
  have h₂ := ht.length
  have h₃ := gap_length c
  have h₄ := gap_length c₁
  simp only [List.length_cons, List.length_nil] at h₁
  omega

/-- The first item, the further ones, and the closing bracket. -/
theorem listed_eq_some_iff {c c' : Cursor} {as : List α} :
    bracketed opening closing item c = some (as, c') ↔ ∃ c₁, c.eat? [opening] = some c₁ ∧
      ((item (gap c₁) = none ∧ as = [] ∧ (gap c₁).eat? [closing] = some c') ∨
        ∃ a c₂, item (gap c₁) = some (a, c₂) ∧ as = a :: (many gap (afterComma item) c₂).1 ∧
          (gap (((gap (many gap (afterComma item) c₂).2).eat? [',']).getD
            (many gap (afterComma item) c₂).2)).eat? [closing] = some c') := by
  simp only [bracketed, listed, Option.bind_eq_bind, Option.bind_eq_some_iff]
  refine exists_congr fun c₁ => and_congr_right fun _ => ?_
  cases hitem : item (gap c₁) with
  | none =>
      simp only [Option.bind_eq_some_iff, Option.some.injEq, Prod.mk.injEq, reduceCtorEq, false_and,
        exists_false, or_false, true_and]
      constructor
      · rintro ⟨_, h, has, rfl⟩
        exact ⟨has.symm, h⟩
      · rintro ⟨has, h⟩
        exact ⟨c', h, has.symm, rfl⟩
  | some ac =>
      simp only [Option.bind_eq_some_iff, Option.some.injEq, Prod.mk.injEq, reduceCtorEq, false_and,
        false_or]
      constructor
      · rintro ⟨c₃, h, has, rfl⟩
        exact ⟨ac.1, ac.2, rfl, has.symm, h⟩
      · rintro ⟨a, c₂, rfl, has, h⟩
        exact ⟨c', h, has.symm, rfl⟩

/-- Behind an item the list is read to its end. -/
theorem ListTail.reads {S : Position → α → List Char → Prop}
    (hclosing : closing = ')' ∨ closing = ']') (on : Spells item S) {text : ι → List Char}
    {value : ι → α} (none : ∀ rest, Refuses item (closing :: rest)) {items : List ι}
    (clear : ∀ i ∈ items, text i ≠ [] ∧ Stops opensGap (text i))
    (step : ∀ i ∈ items, ∀ c c' : Cursor, c.Passes (text i) c' → EndsValue c'.rest →
      item c = some (value i, c'))
    {u : List Char} (h : ListTail closing (items.map text) u) {c c' : Cursor} (hp : c.Passes u c') :
    (many gap (afterComma item) c).1 = items.map value ∧
      (gap (((gap (many gap (afterComma item) c).2).eat? [',']).getD
        (many gap (afterComma item) c).2)).eat? [closing] = some c' := by
  have hclear : opensGap closing = false ∧ (closing == ',') = false := by
    rcases hclosing with rfl | rfl <;> decide
  induction items generalizing u c with
  | nil =>
      -- no further item: a comma is passed over, if there is one, and then the bracket is there
      cases h with
      | @close g hg =>
          obtain ⟨c₁, hp₁, hp₂⟩ := hp.split
          have h₁ := gap_reads hg hp₁ (by rw [hp₂.rest]; exact .cons hclear.1)
          have h₂ := Cursor.eat?_char_eq_none (x := ',') (c := c₁)
            (by rw [hp₂.rest]; exact .cons hclear.2)
          have h₃ : many gap (afterComma item) c = ([], c) := many_of_none (by
            rw [afterComma, h₁, h₂]
            rfl)
          simp only [h₃, h₁, h₂, Option.getD_none, hp₂.eat?, List.map_nil, and_self]
      | @comma g g' hg hg' =>
          obtain ⟨c₁, hp₁, hp⟩ := hp.split
          obtain ⟨c₂, hp₂, hp⟩ := hp.split_cons
          obtain ⟨c₃, hp₃, hp₄⟩ := hp.split
          have h₁ := gap_reads hg hp₁ (by rw [hp₂.rest]; exact .cons rfl)
          have h₃ := gap_reads hg' hp₃ (by rw [hp₄.rest]; exact .cons hclear.1)
          have h₄ : many gap (afterComma item) c = ([], c) := many_of_none (by
            rw [afterComma, h₁, hp₂.eat?]
            show item (gap c₂) = _
            rw [h₃, none _ _ hp₄.rest])
          simp only [h₄, h₁, hp₂.eat?, Option.getD_some, h₃, hp₄.eat?, List.map_nil, and_self]
  | cons i items ih =>
      rw [List.map_cons] at h
      cases h with
      | @item g g' _ u _ hg hg' h =>
          obtain ⟨c₁, hp₁, hp⟩ := hp.split
          obtain ⟨c₂, hp₂, hp⟩ := hp.split_cons
          obtain ⟨c₃, hp₃, hp⟩ := hp.split
          obtain ⟨c₄, hp₄, hp⟩ := hp.split
          obtain ⟨hne, hstops⟩ := clear i (by simp)
          have h₁ := gap_reads hg hp₁ (by rw [hp₂.rest]; exact .cons rfl)
          have h₃ := gap_reads hg' hp₃ (by rw [hp₄.rest]; exact hstops.append_of_ne_nil _ hne)
          have h₄ := step i (by simp) _ _ hp₄ (by rw [hp.rest]; exact h.endsValue hclosing _)
          -- behind the item the list goes on as from its own end
          obtain ⟨hvalues, hclose⟩ := ih (fun j hj => clear j (by simp [hj]))
            (fun j hj => step j (by simp [hj])) h hp
          have h₅ := many_of_some (c := c) (afterComma_getsOn on) (by
            rw [afterComma, h₁, hp₂.eat?]
            show item (gap c₂) = _
            rw [h₃, h₄])
          rw [h₅]
          exact ⟨congrArg (value i :: ·) hvalues, hclose⟩

/-- **A list is read item by item, however it is set out.** -/
theorem listed_reads {S : Position → α → List Char → Prop}
    (hclosing : closing = ')' ∨ closing = ']') (on : Spells item S) {text : ι → List Char}
    {value : ι → α} (none : ∀ rest, Refuses item (closing :: rest)) {items : List ι}
    (clear : ∀ i ∈ items, text i ≠ [] ∧ Stops opensGap (text i))
    (step : ∀ i ∈ items, ∀ c c' : Cursor, c.Passes (text i) c' → EndsValue c'.rest →
      item c = some (value i, c'))
    {t : List Char} (h : Listed opening closing (items.map text) t) {c c' : Cursor}
    (hp : c.Passes t c') : bracketed opening closing item c = some (items.map value, c') := by
  have hclear : opensGap closing = false := by rcases hclosing with rfl | rfl <;> decide
  rw [listed_eq_some_iff]
  cases items with
  | nil =>
      cases h with
      | @empty g hg =>
          obtain ⟨c₁, hp₁, hp⟩ := hp.split_cons
          obtain ⟨c₂, hp₂, hp₃⟩ := hp.split
          have h₁ := gap_reads hg hp₂ (by rw [hp₃.rest]; exact .cons hclear)
          exact ⟨c₁, hp₁.eat?, .inl ⟨by rw [h₁, none _ _ hp₃.rest], rfl, by rw [h₁, hp₃.eat?]⟩⟩
  | cons i items =>
      rw [List.map_cons] at h
      cases h with
      | @items g _ u _ hg h =>
          obtain ⟨c₁, hp₁, hp⟩ := hp.split_cons
          obtain ⟨c₂, hp₂, hp⟩ := hp.split
          obtain ⟨c₃, hp₃, hp⟩ := hp.split
          obtain ⟨hne, hstops⟩ := clear i (by simp)
          have h₁ := gap_reads hg hp₂ (by rw [hp₃.rest]; exact hstops.append_of_ne_nil _ hne)
          have h₂ := step i (by simp) _ _ hp₃ (by rw [hp.rest]; exact h.endsValue hclosing _)
          obtain ⟨hvalues, hclose⟩ := h.reads hclosing on none
            (fun j hj => clear j (by simp [hj])) (fun j hj => step j (by simp [hj])) hp
          exact ⟨c₁, hp₁.eat?, .inr ⟨value i, c₃, by rw [h₁, h₂], by rw [hvalues, List.map_cons],
            hclose⟩⟩

theorem gap_spells_before {x : Char} {c c' : Cursor} (h : (gap c).eat? [x] = some c') :
    ∃ g, IsGap g ∧ c.Passes g (gap c) := gap_spells c fun hnil => by
  have hrest := (Cursor.eat?_passes h).rest
  rw [hnil] at hrest
  cases hrest

theorem gap_spells_item (empty : Refuses item []) {a : α} {c c' : Cursor}
    (h : item (gap c) = some (a, c')) : ∃ g, IsGap g ∧ c.Passes g (gap c) :=
  gap_spells c fun hnil => by
    rw [empty _ hnil] at h
    cases h

/-- Behind the last item there is a comma or none. -/
theorem listEnd_spells {c c' : Cursor}
    (h : (gap (((gap c).eat? [',']).getD c)).eat? [closing] = some c') :
    ∃ u, ListTail closing [] u ∧ c.Passes u c' := by
  cases hcomma : (gap c).eat? [','] with
  | none =>
      rw [hcomma, Option.getD_none] at h
      obtain ⟨g, hg, hp⟩ := gap_spells_before h
      exact ⟨_, .close hg, hp.trans (Cursor.eat?_passes h)⟩
  | some c₁ =>
      rw [hcomma, Option.getD_some] at h
      obtain ⟨g, hg, hp⟩ := gap_spells_before hcomma
      obtain ⟨g', hg', hp'⟩ := gap_spells_before h
      exact ⟨_, .comma hg hg', hp.trans ((Cursor.eat?_passes hcomma).trans
        (hp'.trans (Cursor.eat?_passes h)))⟩

/-- The piece is a comma and an item, with gaps before and between them. -/
def IsListPiece (S : α → List Char → Prop) (a : α) (p : List Char) : Prop :=
  ∃ g g' t, IsGap g ∧ IsGap g' ∧ S a t ∧ p = g ++ ',' :: (g' ++ t)

theorem afterComma_spells {S : α → List Char → Prop} (empty : Refuses item [])
    (h : Spells item fun _ => S) {c c' : Cursor} {a : α}
    (hc : afterComma item (gap c) = some (a, c')) : ∃ p, c.Passes p c' ∧ IsListPiece S a p := by
  obtain ⟨c₁, hcomma, hitem⟩ := Option.bind_eq_some_iff.mp hc
  obtain ⟨g, hg, hp⟩ := gap_spells_before hcomma
  obtain ⟨g', hg', hp'⟩ := gap_spells_item empty hitem
  obtain ⟨t, ht, hS⟩ := h hitem
  exact ⟨_, hp.trans ((Cursor.eat?_passes hcomma).trans (hp'.trans ht)), g, g', t, hg, hg', hS, rfl⟩

/-- Such pieces stand behind the first item of a list. -/
theorem listTail_of_pieces {S : α → List Char → Prop} {u : List Char}
    (hu : ListTail closing [] u) {pieces : List (α × List Char)}
    (h : ∀ p ∈ pieces, IsListPiece S p.1 p.2) :
    ∃ items : List (α × List Char), items.map Prod.fst = pieces.map Prod.fst ∧
      (∀ i ∈ items, S i.1 i.2) ∧
      ListTail closing (items.map Prod.snd) (pieces.flatMap Prod.snd ++ u) := by
  induction pieces with
  | nil => exact ⟨[], rfl, by simp, hu⟩
  | cons p pieces ih =>
      obtain ⟨items, hfst, hitems, htail⟩ := ih fun q hq => h q (by simp [hq])
      obtain ⟨g, g', t, hg, hg', hS, hp⟩ := h p (by simp)
      refine ⟨(p.1, t) :: items, by rw [List.map_cons, List.map_cons, hfst],
        List.forall_mem_cons.mpr ⟨hS, hitems⟩, ?_⟩
      rw [List.flatMap_cons, hp]
      simpa using ListTail.item (t := t) hg hg' htail

theorem listTail_spells {S : α → List Char → Prop} (empty : Refuses item [])
    (h : Spells item fun _ => S) {c c' : Cursor}
    (hclose : (gap (((gap (many gap (afterComma item) c).2).eat? [',']).getD
      (many gap (afterComma item) c).2)).eat? [closing] = some c') :
    ∃ (items : List (α × List Char)) (u : List Char),
      items.map Prod.fst = (many gap (afterComma item) c).1 ∧ (∀ i ∈ items, S i.1 i.2) ∧
      ListTail closing (items.map Prod.snd) u ∧ c.Passes u c' := by
  obtain ⟨pieces, hvalues, hpieces, hp, -⟩ :=
    many_spells (afterComma_getsOn h) (fun _ _ _ hc => afterComma_spells empty h hc) c
  obtain ⟨u, hu, hend⟩ := listEnd_spells hclose
  obtain ⟨items, hfst, hitems, htail⟩ := listTail_of_pieces hu hpieces
  exact ⟨items, _, hfst.trans hvalues.symm, hitems, htail, hp.trans hend⟩

/-- **What is read as a list is set out as one.** -/
theorem listed_spells {S : α → List Char → Prop} (empty : Refuses item [])
    (h : Spells item fun _ => S) : Spells (bracketed opening closing item) fun _ as t =>
      ∃ items : List (α × List Char), as = items.map Prod.fst ∧ (∀ i ∈ items, S i.1 i.2) ∧
        Listed opening closing (items.map Prod.snd) t := by
  intro c as c' hc
  obtain ⟨c₁, hopen, ⟨-, rfl, hclose⟩ | ⟨a, c₂, hitem, rfl, hclose⟩⟩ := listed_eq_some_iff.mp hc
  · obtain ⟨g, hg, hp⟩ := gap_spells_before hclose
    exact ⟨_, (Cursor.eat?_passes hopen).trans (hp.trans (Cursor.eat?_passes hclose)), [], rfl,
      by simp, .empty hg⟩
  · obtain ⟨g, hg, hp⟩ := gap_spells_item empty hitem
    obtain ⟨t, ht, hS⟩ := h hitem
    obtain ⟨items, u, hvalues, hitems, hu, hpasses⟩ := listTail_spells empty h hclose
    refine ⟨_, (Cursor.eat?_passes hopen).trans (hp.trans (ht.trans hpasses)), (a, t) :: items, ?_,
      List.forall_mem_cons.mpr ⟨hS, hitems⟩, .items hg hu⟩
    rw [List.map_cons, hvalues]

end Lists

end SchemaEnums.Schema
