import SchemaEnums.Proofs.Text.Passing

/-!
# Text — Down

Reading the same text some lines further down.  A line feed adds one to the line wherever it stands,
so moving on and moving down commute (`afterAll_down`), and a reader built from such moves finds the
same there, with every place moved down (`Reader.MovesDown`).
-/

namespace SchemaEnums.Text

/-- The place as many lines further down. -/
def Position.down (k : Nat) (p : Position) : Position := { p with line := p.line + k }

theorem Position.after_down (k : Nat) (p : Position) (x : Char) :
    (p.down k).after x = (p.after x).down k := by
  by_cases hx : x = '\n'
  · simp only [after, down, hx, if_true]
    congr 1
    omega
  · simp only [after, down, hx, if_false]

theorem Position.afterAll_down (k : Nat) (t : List Char) : ∀ p : Position,
    (p.down k).afterAll t = (p.afterAll t).down k := by
  induction t with
  | nil => exact fun p => rfl
  | cons x t ih =>
      intro p
      rw [afterAll_cons, after_down, ih, afterAll_cons]

namespace Cursor

variable {k : Nat}

/-- The same text as many lines further down. -/
def down (k : Nat) (c : Cursor) : Cursor := { c with position := c.position.down k }

@[simp] theorem rest_down (c : Cursor) : (c.down k).rest = c.rest := rfl

@[simp] theorem position_down (c : Cursor) : (c.down k).position = c.position.down k := rfl

theorem advance_down (c : Cursor) (n : Nat) : (c.down k).advance n = (c.advance n).down k := by
  simp only [advance, rest_down, position_down, Position.afterAll_down]
  rfl

theorem run_down (c : Cursor) (p : Char → Bool) :
    (c.down k).run p = ((c.run p).1, (c.run p).2.down k) := by
  simp only [run, rest_down, advance_down]

theorem skipWhile_down (c : Cursor) (p : Char → Bool) :
    (c.down k).skipWhile p = (c.skipWhile p).down k := by
  simp only [skipWhile, rest_down, advance_down]

theorem eat?_down (c : Cursor) (s : List Char) :
    (c.down k).eat? s = (c.eat? s).map (down k) := by
  simp only [eat?, rest_down, advance_down]
  split <;> rfl

end Cursor

namespace Reader

variable {α : Type} {k : Nat} {f : α → α} {read item : Reader α} {between : Cursor → Cursor}

/-- What the reader finds `k` lines further down is what it finds here, changed by `f`. -/
def MovesDown (k : Nat) (f : α → α) (read : Reader α) : Prop :=
  ∀ c : Cursor, read (c.down k) = (read c).map fun r => (f r.1, r.2.down k)

theorem MovesDown.of_none (h : MovesDown k f read) {c : Cursor} (hc : read c = none) :
    read (c.down k) = none := by rw [h c, hc]; rfl

theorem MovesDown.of_some (h : MovesDown k f read) {c c' : Cursor} {a : α}
    (hc : read c = some (a, c')) : read (c.down k) = some (f a, c'.down k) := by rw [h c, hc]; rfl

theorem manyWithin_down (hbetween : ∀ c : Cursor, between (c.down k) = (between c).down k)
    (h : MovesDown k f read) : ∀ (bound : List Char) (c : Cursor),
    manyWithin between read bound (c.down k) =
      ((manyWithin between read bound c).1.map f, (manyWithin between read bound c).2.down k)
  | [],         c => rfl
  | _ :: bound, c => by
      cases hr : read (between c) with
      | none =>
          have hd := h.of_none hr
          simp only [manyWithin, hbetween, hr, hd, List.map_nil]
      | some r =>
          have hd := h.of_some hr
          simp only [manyWithin, hbetween, hr, hd, manyWithin_down hbetween h bound, List.map_cons]

theorem many_down (hbetween : ∀ c : Cursor, between (c.down k) = (between c).down k)
    (h : MovesDown k f read) (c : Cursor) : many between read (c.down k) =
      ((many between read c).1.map f, (many between read c).2.down k) :=
  manyWithin_down hbetween h c.rest c

theorem listed_down {opening closing : Char}
    (hbetween : ∀ c : Cursor, between (c.down k) = (between c).down k) (h : MovesDown k f item) :
    MovesDown k (List.map f) (listed between opening closing item) := by
  intro c
  have hmore : MovesDown k f (fun c => c.eat? [','] >>= fun c => item (between c)) := by
    intro c
    cases hc : c.eat? [','] with
    | none =>
        simp only [Cursor.eat?_down, hc, Option.bind_eq_bind, Option.map_none, Option.bind_none]
    | some c₁ =>
        simp only [Cursor.eat?_down, hc, Option.bind_eq_bind, Option.map_some, Option.bind_some,
          hbetween, h (between c₁)]
  cases hopen : c.eat? [opening] with
  | none =>
      simp only [listed, Cursor.eat?_down, hopen, Option.bind_eq_bind, Option.map_none,
        Option.bind_none]
  | some c₁ =>
      cases hitem : item (between c₁) with
      | none =>
          have hd := h.of_none hitem
          simp only [listed, Cursor.eat?_down, hopen, hbetween, hitem, hd, Option.bind_eq_bind,
            Option.map_some, Option.bind_some]
          cases (between c₁).eat? [closing] <;> rfl
      | some r =>
          have hd := h.of_some hitem
          have hm := many_down hbetween hmore r.2
          simp only [Option.bind_eq_bind] at hm
          simp only [listed, Cursor.eat?_down, hopen, hbetween, hitem, hd, hm, Option.bind_eq_bind,
            Option.map_some, Option.bind_some]
          generalize many between _ r.2 = m
          -- a last comma or none, and the closing bracket
          cases hcomma : (between m.2).eat? [','] with
          | none =>
              simp only [Option.map_none, Option.getD_none, hbetween, Cursor.eat?_down]
              cases (between m.2).eat? [closing] <;> rfl
          | some c₂ =>
              simp only [Option.map_some, Option.getD_some, hbetween, Cursor.eat?_down]
              cases (between c₂).eat? [closing] <;> rfl

end Reader

end SchemaEnums.Text
