import SchemaEnums.Proofs.Text.Passing

/-!
# Text — Peg

Parsing expression grammars whose rules leave a tree behind.

A pattern passes a part of the text or refuses, and `Matches` says which: its derivations are the
ways a parser goes, so that one exists if the parser comes to an end, and they agree in what they
find (`Matches.unique`).  Three modes say what holds inside a rule: where it is `free`, blanks may
stand between the parts of a pattern; where it is `compound`, they may not; and where it is
`atomic`, the rules below leave no pairs either.
-/

namespace SchemaEnums.Text.Peg
open Reader

/-! ### Patterns -/

/-- What is looked at without a rule. -/
inductive Terminal where
  | text (word : List Char)
  | char (p : Char → Bool)
  | start
  | finish

/-- A pattern with rules named by `ρ`. -/
inductive Pattern (ρ : Type) where
  | terminal (t : Terminal)
  | rule (r : ρ)
  | seq (e f : Pattern ρ)
  /-- The second pattern counts where the first refuses. -/
  | choice (e f : Pattern ρ)
  | option (e : Pattern ρ)
  | many (e : Pattern ρ)
  /-- The occurrences behind one that has been found already. -/
  | more (e : Pattern ρ)
  | not (e : Pattern ρ)
  | ahead (e : Pattern ρ)

/-- What holds inside a rule. -/
inductive Mode where
  | free
  | compound
  | atomic
deriving DecidableEq

/-- How a rule is declared. -/
inductive Kind where
  | normal
  | silent
  | atomic
  | compound
  | free

/-- The mode inside a rule. -/
def Kind.inside : Kind → Mode → Mode
  | normal,   m => m
  | silent,   m => m
  | atomic,   _ => .atomic
  | compound, _ => .compound
  | free,     _ => .free

/-- The rule leaves a pair. -/
def Kind.leaves : Kind → Mode → Bool
  | normal,   m => m != .atomic
  | silent,   _ => false
  | atomic,   m => m != .atomic
  | compound, _ => true
  | free,     _ => true

/-- A grammar, and what may stand between the parts of a pattern. -/
structure Grammar (ρ : Type) where
  kind  : ρ → Kind
  body  : ρ → Pattern ρ
  blank : Pattern ρ

/-- What stands between the parts of a pattern. -/
def Grammar.between {ρ : Type} (g : Grammar ρ) : Mode → Pattern ρ
  | .free     => g.blank
  | .compound => .terminal (.text [])
  | .atomic   => .terminal (.text [])

/-- The place behind what is looked at, if it is there. -/
def Terminal.read : Terminal → Cursor → Option Cursor
  | text word, c => c.eat? word
  | char p,    c =>
    match c.rest with
    | x :: _ => if p x then some (c.advance 1) else none
    | []     => none
  | start,     c => if c.position = .start then some c else none
  | finish,    c => if c.rest.isEmpty then some c else none

/-! ### Trees -/

/-- What a rule has left: where it began, what it passed, and what the rules below it have left. -/
inductive Pair (ρ : Type) where
  | mk (rule : ρ) (position : Position) (text : List Char) (parts : List (Pair ρ))

def Pair.position {ρ : Type} : Pair ρ → Position
  | mk _ p _ _ => p

/-- The text between two places. -/
def passed (c c' : Cursor) : List Char := c.rest.take (c.rest.length - c'.rest.length)

theorem passed_of_passes {c c' : Cursor} {t : List Char} (h : c.Passes t c') : passed c c' = t := by
  rw [passed, h.length, Nat.add_sub_cancel, h.rest, List.take_left]

variable {ρ : Type}

/-- What a rule leaves. -/
def Grammar.left (g : Grammar ρ) (m : Mode) (r : ρ) (c c' : Cursor) (ps : List (Pair ρ)) :
    List (Pair ρ) :=
  if (g.kind r).leaves m then [⟨r, c.position, passed c c', ps⟩] else ps

/-! ### Matching -/

/-- What a pattern does at a place: it refuses, or leaves pairs and goes on at another place. -/
inductive Matches (g : Grammar ρ) :
    Mode → Pattern ρ → Cursor → Option (List (Pair ρ) × Cursor) → Prop where
  | terminal {m : Mode} {t : Terminal} {c c' : Cursor} (h : t.read c = some c') :
      Matches g m (.terminal t) c (some ([], c'))
  | terminalNone {m : Mode} {t : Terminal} {c : Cursor} (h : t.read c = none) :
      Matches g m (.terminal t) c none
  | rule {m : Mode} {r : ρ} {c c' : Cursor} {ps : List (Pair ρ)}
      (h : Matches g ((g.kind r).inside m) (g.body r) c (some (ps, c'))) :
      Matches g m (.rule r) c (some (g.left m r c c' ps, c'))
  | ruleNone {m : Mode} {r : ρ} {c : Cursor}
      (h : Matches g ((g.kind r).inside m) (g.body r) c none) : Matches g m (.rule r) c none
  | seq {m : Mode} {e f : Pattern ρ} {c c₁ c₂ c' : Cursor} {ps qs : List (Pair ρ)}
      (h₁ : Matches g m e c (some (ps, c₁)))
      (hb : Matches g .atomic (g.between m) c₁ (some ([], c₂)))
      (h₂ : Matches g m f c₂ (some (qs, c'))) :
      Matches g m (.seq e f) c (some (ps ++ qs, c'))
  | seqLeft {m : Mode} {e f : Pattern ρ} {c : Cursor} (h : Matches g m e c none) :
      Matches g m (.seq e f) c none
  | seqRight {m : Mode} {e f : Pattern ρ} {c c₁ c₂ : Cursor} {ps : List (Pair ρ)}
      (h₁ : Matches g m e c (some (ps, c₁)))
      (hb : Matches g .atomic (g.between m) c₁ (some ([], c₂)))
      (h₂ : Matches g m f c₂ none) : Matches g m (.seq e f) c none
  | first {m : Mode} {e f : Pattern ρ} {c : Cursor} {x : List (Pair ρ) × Cursor}
      (h : Matches g m e c (some x)) : Matches g m (.choice e f) c (some x)
  | second {m : Mode} {e f : Pattern ρ} {c : Cursor} {x : Option (List (Pair ρ) × Cursor)}
      (h₁ : Matches g m e c none) (h₂ : Matches g m f c x) : Matches g m (.choice e f) c x
  | option {m : Mode} {e : Pattern ρ} {c : Cursor} {x : List (Pair ρ) × Cursor}
      (h : Matches g m e c (some x)) : Matches g m (.option e) c (some x)
  | optionNone {m : Mode} {e : Pattern ρ} {c : Cursor} (h : Matches g m e c none) :
      Matches g m (.option e) c (some ([], c))
  | many {m : Mode} {e : Pattern ρ} {c c₁ c' : Cursor} {ps qs : List (Pair ρ)}
      (h₁ : Matches g m e c (some (ps, c₁))) (h₂ : Matches g m (.more e) c₁ (some (qs, c'))) :
      Matches g m (.many e) c (some (ps ++ qs, c'))
  | manyNone {m : Mode} {e : Pattern ρ} {c : Cursor} (h : Matches g m e c none) :
      Matches g m (.many e) c (some ([], c))
  | more {m : Mode} {e : Pattern ρ} {c c₁ c₂ c' : Cursor} {ps qs : List (Pair ρ)}
      (hb : Matches g .atomic (g.between m) c (some ([], c₁)))
      (h₁ : Matches g m e c₁ (some (ps, c₂))) (h₂ : Matches g m (.more e) c₂ (some (qs, c'))) :
      Matches g m (.more e) c (some (ps ++ qs, c'))
  /-- What stood before an occurrence that was not found is not passed. -/
  | moreNone {m : Mode} {e : Pattern ρ} {c c₁ : Cursor}
      (hb : Matches g .atomic (g.between m) c (some ([], c₁))) (h : Matches g m e c₁ none) :
      Matches g m (.more e) c (some ([], c))
  | not {m : Mode} {e : Pattern ρ} {c : Cursor} (h : Matches g m e c none) :
      Matches g m (.not e) c (some ([], c))
  | notNone {m : Mode} {e : Pattern ρ} {c : Cursor} {x : List (Pair ρ) × Cursor}
      (h : Matches g m e c (some x)) : Matches g m (.not e) c none
  | ahead {m : Mode} {e : Pattern ρ} {c : Cursor} {x : List (Pair ρ) × Cursor}
      (h : Matches g m e c (some x)) : Matches g m (.ahead e) c (some ([], c))
  | aheadNone {m : Mode} {e : Pattern ρ} {c : Cursor} (h : Matches g m e c none) :
      Matches g m (.ahead e) c none

variable {g : Grammar ρ} {m : Mode} {e f : Pattern ρ} {c c' : Cursor}

/-- **What a pattern does is determined.** -/
theorem Matches.unique {x y : Option (List (Pair ρ) × Cursor)} (hx : Matches g m e c x)
    (hy : Matches g m e c y) : x = y := by
  -- only the constructors for the pattern's shape can have led to `y`, and those that do not agree
  -- with `hx` contradict what the parts have done
  induction hx generalizing y with
  | terminal h =>
      cases hy with
      | terminal h' => rw [h] at h'; cases h'; rfl
      | terminalNone h' => rw [h] at h'; cases h'
  | terminalNone h =>
      cases hy with
      | terminal h' => rw [h] at h'; cases h'
      | terminalNone h' => rfl
  | rule h ih =>
      cases hy with
      | rule h' => cases ih h'; rfl
      | ruleNone h' => cases ih h'
  | ruleNone h ih =>
      cases hy with
      | rule h' => cases ih h'
      | ruleNone h' => rfl
  | seq h₁ hb h₂ ih₁ ihb ih₂ =>
      cases hy with
      | seq h₁' hb' h₂' => cases ih₁ h₁'; cases ihb hb'; cases ih₂ h₂'; rfl
      | seqLeft h₁' => cases ih₁ h₁'
      | seqRight h₁' hb' h₂' => cases ih₁ h₁'; cases ihb hb'; cases ih₂ h₂'
  | seqLeft h ih =>
      cases hy with
      | seq h₁' => cases ih h₁'
      | seqLeft h₁' => rfl
      | seqRight h₁' => cases ih h₁'
  | seqRight h₁ hb h₂ ih₁ ihb ih₂ =>
      cases hy with
      | seq h₁' hb' h₂' => cases ih₁ h₁'; cases ihb hb'; cases ih₂ h₂'
      | seqLeft h₁' => rfl
      | seqRight h₁' => rfl
  | first h ih =>
      cases hy with
      | first h' => exact ih h'
      | second h₁' => cases ih h₁'
  | second h₁ h₂ ih₁ ih₂ =>
      cases hy with
      | first h' => cases ih₁ h'
      | second h₁' h₂' => exact ih₂ h₂'
  | option h ih =>
      cases hy with
      | option h' => exact ih h'
      | optionNone h' => cases ih h'
  | optionNone h ih =>
      cases hy with
      | option h' => cases ih h'
      | optionNone h' => rfl
  | many h₁ h₂ ih₁ ih₂ =>
      cases hy with
      | many h₁' h₂' => cases ih₁ h₁'; cases ih₂ h₂'; rfl
      | manyNone h' => cases ih₁ h'
  | manyNone h ih =>
      cases hy with
      | many h₁' => cases ih h₁'
      | manyNone h' => rfl
  | more hb h₁ h₂ ihb ih₁ ih₂ =>
      cases hy with
      | more hb' h₁' h₂' => cases ihb hb'; cases ih₁ h₁'; cases ih₂ h₂'; rfl
      | moreNone hb' h' => cases ihb hb'; cases ih₁ h'
  | moreNone hb h ihb ih =>
      cases hy with
      | more hb' h₁' => cases ihb hb'; cases ih h₁'
      | moreNone hb' h' => rfl
  | not h ih =>
      cases hy with
      | not h' => rfl
      | notNone h' => cases ih h'
  | notNone h ih =>
      cases hy with
      | not h' => cases ih h'
      | notNone h' => rfl
  | ahead h ih =>
      cases hy with
      | ahead h' => rfl
      | aheadNone h' => cases ih h'
  | aheadNone h ih =>
      cases hy with
      | ahead h' => cases ih h'
      | aheadNone h' => rfl

/-! ### What is passed -/

theorem Terminal.read_passes {t : Terminal} (h : t.read c = some c') : ∃ s, c.Passes s c' := by
  cases t with
  | text word => exact ⟨word, Cursor.eat?_passes h⟩
  | char p =>
      simp only [read] at h
      split at h
      case h_1 x rest hc =>
        split at h
        case isTrue =>
          cases h
          exact ⟨[x], Cursor.passes_advance hc⟩
        case isFalse => cases h
      case h_2 => cases h
  | start =>
      simp only [read] at h
      split at h
      case isTrue => cases h; exact ⟨[], .refl c⟩
      case isFalse => cases h
  | finish =>
      simp only [read] at h
      split at h
      case isTrue => cases h; exact ⟨[], .refl c⟩
      case isFalse => cases h

/-- A pattern goes forward only. -/
theorem Matches.passes {ps : List (Pair ρ)} (h : Matches g m e c (some (ps, c'))) :
    ∃ s, c.Passes s c' := by
  generalize hx : some (ps, c') = x at h
  induction h generalizing ps c' with
  | terminal h => cases hx; exact Terminal.read_passes h
  | rule h ih => cases hx; exact ih rfl
  | seq h₁ hb h₂ ih₁ ihb ih₂ =>
      cases hx
      obtain ⟨s, hs⟩ := ih₁ rfl
      obtain ⟨b, hb⟩ := ihb rfl
      obtain ⟨t, ht⟩ := ih₂ rfl
      exact ⟨_, hs.trans (hb.trans ht)⟩
  | first h ih => exact ih hx
  | second h₁ h₂ ih₁ ih₂ => exact ih₂ hx
  | option h ih => exact ih hx
  | many h₁ h₂ ih₁ ih₂ =>
      cases hx
      obtain ⟨s, hs⟩ := ih₁ rfl
      obtain ⟨t, ht⟩ := ih₂ rfl
      exact ⟨_, hs.trans ht⟩
  | more hb h₁ h₂ ihb ih₁ ih₂ =>
      cases hx
      obtain ⟨b, hb⟩ := ihb rfl
      obtain ⟨s, hs⟩ := ih₁ rfl
      obtain ⟨t, ht⟩ := ih₂ rfl
      exact ⟨_, hb.trans (hs.trans ht)⟩
  | optionNone _ _ | manyNone _ _ | moreNone _ _ _ _ | not _ _ | ahead _ _ =>
      cases hx
      exact ⟨[], .refl _⟩
  | terminalNone _ | ruleNone _ _ | seqLeft _ _ | seqRight _ _ _ _ _ _ | notNone _ _
  | aheadNone _ _ => cases hx

/-! ### Where nothing stands between -/

theorem eat?_nil (c : Cursor) : c.eat? [] = some c := by
  rw [Cursor.eat?, List.isPrefixOf_nil_left, if_pos rfl]
  exact congrArg some (Cursor.advance_zero c)

theorem between_tight (hm : m ≠ .free) (c : Cursor) :
    Matches g .atomic (g.between m) c (some ([], c)) := by
  cases m with
  | free => exact absurd rfl hm
  | compound => exact .terminal (eat?_nil c)
  | atomic => exact .terminal (eat?_nil c)

/-- The pattern does what `read` does, and leaves nothing. -/
def Recognizes (g : Grammar ρ) (m : Mode) (e : Pattern ρ) (read : Cursor → Option Cursor) : Prop :=
  ∀ c, Matches g m e c ((read c).map ([], ·))

variable {read read' : Cursor → Option Cursor}

theorem Recognizes.of_some (h : Recognizes g m e read) (hr : read c = some c') :
    Matches g m e c (some ([], c')) := by
  have hc := h c
  rwa [hr] at hc

theorem Recognizes.of_none (h : Recognizes g m e read) (hr : read c = none) :
    Matches g m e c none := by
  have hc := h c
  rwa [hr] at hc

theorem Recognizes.congr (h : Recognizes g m e read) (hr : ∀ c, read c = read' c) :
    Recognizes g m e read' := fun c => hr c ▸ h c

theorem recognizes_terminal (t : Terminal) : Recognizes g m (.terminal t) t.read := by
  intro c
  cases h : t.read c with
  | none => exact .terminalNone h
  | some c' => exact .terminal h

theorem Recognizes.rule {r : ρ} (h : Recognizes g m (g.body r) read)
    (hmode : (g.kind r).inside m = m) (hleaves : (g.kind r).leaves m = false) :
    Recognizes g m (.rule r) read := by
  intro c
  cases hr : read c with
  | none => exact .ruleNone (by rw [hmode]; exact h.of_none hr)
  | some c' =>
      have hrule : Matches g m (.rule r) c (some (g.left m r c c' [], c')) :=
        .rule (by rw [hmode]; exact h.of_some hr)
      rwa [Grammar.left, hleaves, if_neg Bool.false_ne_true] at hrule

theorem Recognizes.seq (he : Recognizes g .atomic e read) (hf : Recognizes g .atomic f read') :
    Recognizes g .atomic (.seq e f) fun c => read c >>= read' := by
  intro c
  dsimp only
  cases hr : read c with
  | none => exact .seqLeft (he.of_none hr)
  | some c₁ =>
      have hb : Matches g .atomic (g.between .atomic) c₁ _ := between_tight (by decide) c₁
      rw [Option.bind_eq_bind, Option.bind_some]
      cases hr' : read' c₁ with
      | none => exact .seqRight (he.of_some hr) hb (hf.of_none hr')
      | some c' => exact .seq (he.of_some hr) hb (hf.of_some hr')

theorem Recognizes.choice (he : Recognizes g m e read) (hf : Recognizes g m f read') :
    Recognizes g m (.choice e f) fun c => (read c).or (read' c) := by
  intro c
  dsimp only
  cases hr : read c with
  | none => exact .second (he.of_none hr) (hf c)
  | some c₁ => exact .first (he.of_some hr)

theorem Recognizes.option (he : Recognizes g m e read) :
    Recognizes g m (.option e) fun c => some ((read c).getD c) := by
  intro c
  dsimp only
  cases hr : read c with
  | none => exact .optionNone (he.of_none hr)
  | some c₁ => exact .option (he.of_some hr)

theorem Recognizes.not (he : Recognizes g m e read) :
    Recognizes g m (.not e) fun c => if (read c).isSome then none else some c := by
  intro c
  dsimp only
  cases hr : read c with
  | none => exact .not (he.of_none hr)
  | some c₁ => exact .notNone (he.of_some hr)

/-- A repetition goes as far as there are occurrences, if each of them gets on. -/
theorem Recognizes.many {α : Type} {read : Reader α}
    (h : Recognizes g .atomic e fun c => (read c).map (·.2)) (on : GetsOn id read) :
    Recognizes g .atomic (.many e) fun c => some (Reader.many id read c).2 := by
  have hmore : ∀ c, Matches g .atomic (.more e) c (some ([], (Reader.many id read c).2)) := by
    intro c
    induction hn : c.rest.length using Nat.strongRecOn generalizing c with
    | ind n ih =>
        subst hn
        have hb : Matches g .atomic (g.between .atomic) c _ := between_tight (by decide) c
        cases hr : read c with
        | none =>
            rw [many_of_none hr]
            exact .moreNone hb (h.of_none (by simp only [hr, Option.map_none]))
        | some r =>
            rw [many_of_some on hr]
            exact .more hb (h.of_some (by simp only [hr, Option.map_some])) (ih _ (on hr) r.2 rfl)
  intro c
  dsimp only
  cases hr : read c with
  | none =>
      rw [many_of_none hr]
      exact .manyNone (h.of_none (by simp only [hr, Option.map_none]))
  | some r =>
      rw [many_of_some on hr]
      exact .many (h.of_some (by simp only [hr, Option.map_some])) (hmore r.2)

/-! ### Characters of a class -/

theorem char_read_cons {p : Char → Bool} {x : Char} {rest : List Char} (hc : c.rest = x :: rest) :
    (Terminal.char p).read c = if p x then some (c.advance 1) else none := by
  rw [Terminal.read, hc]

theorem char_read_stops {p : Char → Bool} (h : Stops p c.rest) : (Terminal.char p).read c = none := by
  cases hc : c.rest with
  | nil => rw [Terminal.read, hc]
  | cons x rest =>
      rw [hc, stops_cons] at h
      rw [char_read_cons hc, h, if_neg Bool.false_ne_true]

theorem eat?_cons {x : Char} {rest w : List Char} (hc : c.rest = x :: rest) (y : Char) :
    c.eat? (y :: w) = if y = x ∧ w <+: rest then some (c.advance (w.length + 1)) else none := by
  rw [Cursor.eat?, hc]
  simp

theorem eat?_one (c : Cursor) (x : Char) : c.eat? [x] = (Terminal.char (· == x)).read c := by
  cases hc : c.rest with
  | nil => rw [char_read_stops (hc ▸ stops_nil), Cursor.eat?, hc]; rfl
  | cons y rest => rw [eat?_cons hc, char_read_cons hc, BEq.comm]; simp

theorem Recognizes.congr_char {p q : Char → Bool} (he : Recognizes g m e (Terminal.char p).read)
    (h : ∀ x, p x = q x) : Recognizes g m e (Terminal.char q).read := by
  rwa [show q = p from (funext h).symm]

theorem Recognizes.or_char {p q : Char → Bool} (he : Recognizes g m e (Terminal.char p).read)
    (hf : Recognizes g m f (Terminal.char q).read) :
    Recognizes g m (.choice e f) (Terminal.char fun x => p x || q x).read := by
  refine (he.choice hf).congr fun c => ?_
  cases hc : c.rest with
  | nil =>
      have hnil : ∀ p : Char → Bool, Stops p c.rest := fun _ => hc ▸ stops_nil
      rw [char_read_stops (hnil _), char_read_stops (hnil _), char_read_stops (hnil _)]
      rfl
  | cons x rest =>
      rw [char_read_cons hc, char_read_cons hc, char_read_cons hc]
      cases p x <;> simp

theorem skipWhile_stay {p : Char → Bool} (h : Stops p c.rest) : c.skipWhile p = c := by
  rw [Cursor.skipWhile_eq (s := []) rfl (by simp) h]
  exact Cursor.advance_zero c

theorem skipWhile_advance {p : Char → Bool} {x : Char} {rest : List Char}
    (hc : c.rest = x :: rest) (hx : p x = true) : c.skipWhile p = (c.advance 1).skipWhile p := by
  rw [Cursor.skipWhile, Cursor.skipWhile, Cursor.advance_advance, Cursor.rest_advance, hc,
    List.takeWhile_cons_of_pos hx, List.length_cons, List.drop_one, List.tail_cons, Nat.add_comm]

/-- Characters of a class one after another are their longest run. -/
theorem Recognizes.many_char {p : Char → Bool}
    (h : Recognizes g .atomic e (Terminal.char p).read) :
    Recognizes g .atomic (.many e) fun c => some (c.skipWhile p) := by
  -- as a reader that yields nothing, so that the loop is `many`
  let read : Reader Unit := fun c => ((Terminal.char p).read c).map ((), ·)
  have hread : ∀ c, (read c).map (·.2) = (Terminal.char p).read c := fun c => by
    simp only [read, Option.map_map, Function.comp_def, Option.map_id']
  have on : GetsOn id read := by
    intro c a c' hc
    cases hrest : c.rest with
    | nil => simp only [read, id, char_read_stops (hrest ▸ stops_nil), Option.map_none,
        reduceCtorEq] at hc
    | cons x rest =>
        simp only [read, id, char_read_cons hrest] at hc
        split at hc
        case isTrue => cases hc; simp [Cursor.rest_advance, hrest]
        case isFalse => cases hc
  refine ((h.congr fun c => (hread c).symm).many on).congr fun c => congrArg Option.some ?_
  -- each turn takes one character off what is left
  induction hn : c.rest.length using Nat.strongRecOn generalizing c with
  | ind n ih =>
      subst hn
      by_cases hstops : Stops p c.rest
      · rw [many_of_none (by simp only [read, id, char_read_stops hstops, Option.map_none]),
          skipWhile_stay hstops]
      · obtain ⟨x, rest, hrest, hx⟩ : ∃ x rest, c.rest = x :: rest ∧ p x = true := by
          cases hrest : c.rest with
          | nil => exact absurd (hrest ▸ stops_nil) hstops
          | cons x rest =>
              rw [hrest, stops_cons, Bool.not_eq_false] at hstops
              exact ⟨x, rest, rfl, hstops⟩
        have hr : read (id c) = some ((), c.advance 1) := by
          simp only [read, id, char_read_cons hrest, hx, if_true, Option.map_some]
        rw [many_of_some on hr, skipWhile_advance hrest hx]
        exact ih _ (on hr) _ rfl

/-! ### Readers and what rules leave -/

section Follows

variable {α : Type} {stands : α → List (Pair ρ) → Prop}

/-- The pattern goes where a reader went, or refuses with it; the pairs it leaves stand for the
value. -/
def Follows (g : Grammar ρ) (m : Mode) (e : Pattern ρ) (stands : α → List (Pair ρ) → Prop)
    (c : Cursor) : Option (α × Cursor) → Prop
  | none         => Matches g m e c none
  | some (a, c') => ∃ ps, Matches g m e c (some (ps, c')) ∧ stands a ps

theorem follows_of_matches {a : α} {ps : List (Pair ρ)} {x : Option Cursor}
    (h : Matches g m e c (x.map (ps, ·))) (hs : stands a ps) :
    Follows g m e stands c (x.map (a, ·)) := by
  cases x with
  | none => exact h
  | some c' => exact ⟨ps, h, hs⟩

/-- Pairs that stand for values one after another. -/
inductive Each (stands : α → List (Pair ρ) → Prop) : List α → List (Pair ρ) → Prop where
  | nil : Each stands [] []
  | cons {a : α} {as : List α} {ps qs : List (Pair ρ)} (h : stands a ps) (hs : Each stands as qs) :
      Each stands (a :: as) (ps ++ qs)

variable {β : Type} {stands' : β → List (Pair ρ) → Prop} {x y : Option (α × Cursor)}

theorem Follows.choice (he : Follows g m e stands c x) (hf : Follows g m f stands c y) :
    Follows g m (.choice e f) stands c (x <|> y) := by
  cases x with
  | none =>
      cases y with
      | none => exact .second he hf
      | some r =>
          obtain ⟨ps, hps, hstands⟩ := hf
          exact ⟨ps, .second he hps, hstands⟩
  | some r =>
      obtain ⟨ps, hps, hstands⟩ := he
      exact ⟨ps, .first hps, hstands⟩

theorem Follows.imp {stands' : α → List (Pair ρ) → Prop} (h : Follows g m e stands c x)
    (hs : ∀ a ps, stands a ps → stands' a ps) : Follows g m e stands' c x := by
  cases x with
  | none => exact h
  | some r =>
      obtain ⟨ps, hps, hstands⟩ := h
      exact ⟨ps, hps, hs _ _ hstands⟩

theorem Follows.map {f : α → β} (h : Follows g m e stands c x)
    (hf : ∀ a ps, stands a ps → stands' (f a) ps) :
    Follows g m e stands' c (x.map fun (a, c') => (f a, c')) := by
  cases x with
  | none => exact h
  | some r =>
      obtain ⟨ps, hps, hstands⟩ := h
      exact ⟨ps, hps, hf _ _ hstands⟩

/-- A rule that leaves a pair leaves it around what its pattern has left. -/
theorem Matches.leaves {r : ρ} {inside : Mode} {ps : List (Pair ρ)}
    (h : Matches g inside (g.body r) c (some (ps, c'))) (hinside : (g.kind r).inside m = inside)
    (hleaves : (g.kind r).leaves m = true) :
    Matches g m (.rule r) c (some ([⟨r, c.position, passed c c', ps⟩], c')) := by
  have hrule : Matches g m (.rule r) c (some (g.left m r c c' ps, c')) :=
    .rule (by rw [hinside]; exact h)
  rwa [Grammar.left, hleaves, if_pos rfl] at hrule

theorem Follows.rule {r : ρ} {inside : Mode} (h : Follows g inside (g.body r) stands c x)
    (hinside : (g.kind r).inside m = inside) (hleaves : (g.kind r).leaves m = true) :
    Follows g m (.rule r)
      (fun a ps => ∃ text parts, ps = [⟨r, c.position, text, parts⟩] ∧ stands a parts) c x := by
  cases x with
  | none => exact .ruleNone (by rw [hinside]; exact h)
  | some y =>
      obtain ⟨ps, hps, hstands⟩ := h
      exact ⟨_, hps.leaves hinside hleaves, _, _, rfl, hstands⟩

end Follows

/-! ### Leaves -/

/-- A rule that is atomic leaves one pair, and that has no parts. -/
theorem Recognizes.leaf {r : ρ} (h : Recognizes g .atomic (g.body r) read) (hkind : g.kind r = .atomic)
    (hm : m ≠ .atomic) (hr : read c = some c') :
    Matches g m (.rule r) c (some ([⟨r, c.position, passed c c', []⟩], c')) :=
  (h.of_some hr).leaves (by rw [hkind]; rfl) (by rw [hkind]; exact bne_iff_ne.mpr hm)

theorem Recognizes.leafNone {r : ρ} (h : Recognizes g .atomic (g.body r) read)
    (hkind : g.kind r = .atomic) (hr : read c = none) : Matches g m (.rule r) c none :=
  .ruleNone (by rw [hkind]; exact h.of_none hr)

/-- A word is a leaf with the text of the word. -/
theorem Recognizes.follows {α : Type} {read : Reader α} {r : ρ} {text : α → List Char}
    (h : Recognizes g .atomic (g.body r) fun c => (read c).map (·.2)) (hkind : g.kind r = .atomic)
    (hm : m ≠ .atomic) (htext : ∀ ⦃a c'⦄, read c = some (a, c') → c.Passes (text a) c') :
    Follows g m (.rule r) (fun a ps => ps = [⟨r, c.position, text a, []⟩]) c (read c) := by
  cases hr : read c with
  | none => exact h.leafNone hkind (by rw [hr, Option.map_none])
  | some x =>
      obtain ⟨a, c'⟩ := x
      have hend : (read c).map (·.2) = some c' := by rw [hr, Option.map_some]
      have hleaf := h.leaf hkind hm hend
      rw [passed_of_passes (htext hr)] at hleaf
      exact ⟨_, hleaf, rfl⟩

end SchemaEnums.Text.Peg
