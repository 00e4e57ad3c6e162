import Mathlib.Data.Prod.Lex
import SchemaEnums.Proofs.Text.Peg

/-!
# Text — Before

Which of two places of a text comes first, and what of a tree begins before a place.

Whatever is passed leads forward (`Passes.lt`), so pairs that are `Laid` one behind the other begin
in this order. `Pair.cut p n` keeps those pairs below a pair, down to `n` levels,
that begin before `p`.
-/

namespace SchemaEnums.Text

namespace Position

/-- The line and the column, in this order. -/
def key (p : Position) : Nat ×ₗ Nat := toLex (p.line, p.column)

theorem key_injective : Function.Injective key := fun p q h => by
  obtain ⟨hline, hcolumn⟩ := Prod.mk.inj (toLex_inj.mp h)
  cases p
  cases q
  exact congr (congrArg mk hline) hcolumn

/-- Places are ordered by their lines, and on one line by their columns. -/
instance : LinearOrder Position where
  __ := PartialOrder.lift key key_injective
  le_total := fun p q => le_total p.key q.key
  toDecidableLE := fun p q => inferInstanceAs (Decidable (p.key ≤ q.key))
  toDecidableEq := inferInstance

variable {p q : Position}

theorem lt_iff : p < q ↔ p.line < q.line ∨ p.line = q.line ∧ p.column < q.column :=
  show p.key < q.key ↔ _ from Prod.Lex.toLex_lt_toLex

theorem lt_after (p : Position) (x : Char) : p < p.after x := by
  rw [lt_iff, after]
  split
  case isTrue => exact .inl (Nat.lt_succ_self _)
  case isFalse => exact .inr ⟨rfl, Nat.lt_succ_self _⟩

theorem le_afterAll (p : Position) (t : List Char) : p ≤ p.afterAll t := by
  induction t generalizing p with
  | nil => exact le_refl p
  | cons x t ih => exact (lt_after p x).le.trans (ih _)

theorem lt_afterAll (p : Position) {t : List Char} (ht : t ≠ []) : p < p.afterAll t := by
  cases t with
  | nil => exact absurd rfl ht
  | cons x t => exact (lt_after p x).trans_le (le_afterAll _ t)

end Position

namespace Cursor

variable {c c' : Cursor} {t : List Char}

theorem Passes.le (h : c.Passes t c') : c.position ≤ c'.position := by
  rw [h.position]
  exact Position.le_afterAll _ t

theorem Passes.lt (h : c.Passes t c') (ht : t ≠ []) : c.position < c'.position := by
  rw [h.position]
  exact Position.lt_afterAll _ ht

end Cursor

namespace Peg

variable {ρ : Type}

/-- The pairs that begin before a place. -/
def before (p : Position) (ts : List (Pair ρ)) : List (Pair ρ) :=
  ts.filter fun t => t.position < p

/-- The pair with those pairs below it, down to some depth, that begin before a place. -/
def Pair.cut (p : Position) : Nat → Pair ρ → Pair ρ
  | 0,         t                => t
  | depth + 1, ⟨r, q, text, ts⟩ => ⟨r, q, text, (before p ts).map (cut p depth)⟩

theorem Pair.cut_one {r : ρ} {p q : Position} {text : List Char} {ts : List (Pair ρ)} :
    Pair.cut p 1 ⟨r, q, text, ts⟩ = ⟨r, q, text, before p ts⟩ :=
  congrArg (Pair.mk r q text) ((before p ts).map_id)

/-- Pairs that begin on the way from one place to another, one behind the other. -/
inductive Laid : Cursor → List (Pair ρ) → Cursor → Prop where
  | nil {c c' : Cursor} {s : List Char} (h : c.Passes s c') : Laid c [] c'
  | cons {c d c₁ c' : Cursor} {s u : List Char} {t : Pair ρ} {ts : List (Pair ρ)}
      (hs : c.Passes s d) (ht : t.position = d.position) (hu : d.Passes u c₁) (hne : u ≠ [])
      (h : Laid c₁ ts c') : Laid c (t :: ts) c'

variable {c c' d : Cursor} {s : List Char} {t : Pair ρ} {ts us : List (Pair ρ)} {p : Position}

theorem Laid.behind (h : Laid c ts c') (hp : d.Passes s c) : Laid d ts c' := by
  cases h with
  | nil h => exact .nil (hp.trans h)
  | cons hs ht hu hne h => exact .cons (hp.trans hs) ht hu hne h

theorem Laid.passes (h : Laid c ts c') : ∃ s, c.Passes s c' := by
  induction h with
  | nil h => exact ⟨_, h⟩
  | cons hs _ hu _ _ ih =>
      obtain ⟨v, hv⟩ := ih
      exact ⟨_, hs.trans (hu.trans hv)⟩

theorem Laid.le (h : Laid c ts c') : ∀ t ∈ ts, c.position ≤ t.position := by
  have hall : ∀ {p : Position}, p ≤ c.position → ∀ t ∈ ts, p ≤ t.position := by
    induction h with
    | nil => simp
    | cons hs ht hu _ _ ih =>
        intro p hp
        rw [List.forall_mem_cons, ht]
        exact ⟨hp.trans hs.le, ih (hp.trans (hs.trans hu).le)⟩
  exact hall (le_refl _)

theorem Laid.lt (h : Laid c ts c') : ∀ t ∈ ts, t.position < c'.position := by
  induction h with
  | nil => simp
  | cons _ ht hu hne h ih =>
      obtain ⟨v, hv⟩ := h.passes
      rw [List.forall_mem_cons, ht]
      exact ⟨(hu.lt hne).trans_le hv.le, ih⟩

theorem before_append : before p (ts ++ us) = before p ts ++ before p us :=
  List.filter_append ts us

theorem before_cons (h : t.position < p) : before p (t :: ts) = t :: before p ts :=
  List.filter_cons_of_pos (decide_eq_true h)

theorem before_mk {r : ρ} {q : Position} {text : List Char} (h : q < p) :
    before p (⟨r, q, text, us⟩ :: ts) = ⟨r, q, text, us⟩ :: before p ts := before_cons h

theorem before_mk_of_le {r : ρ} {q : Position} {text : List Char} (h : p ≤ q) :
    before p (⟨r, q, text, us⟩ :: ts) = before p ts :=
  List.filter_cons_of_neg fun hlt => not_lt_of_ge h (of_decide_eq_true hlt)

/-- Where pairs begin at a place or behind it, none is before it. -/
theorem Laid.before_eq_nil (h : Laid c ts c') (hp : p ≤ c.position) : before p ts = [] :=
  List.filter_eq_nil_iff.mpr fun t ht => by simpa using hp.trans (h.le t ht)

/-- Where pairs end at a place or before it, all of them are before it. -/
theorem Laid.before_eq_self (h : Laid c ts c') (hp : c'.position ≤ p) : before p ts = ts :=
  List.filter_eq_self.mpr fun t ht => decide_eq_true ((h.lt t ht).trans_le hp)

end Peg

end SchemaEnums.Text
