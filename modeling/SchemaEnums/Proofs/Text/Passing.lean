import SchemaEnums.Proofs.Text.Reading

/-!
# Text — Passing

What lies between two places of a text.  `c.Passes t c'` says that the way from `c` to `c'` leads
over `t`, and `read.Spells S` that whatever `read` yields is spelled, in the sense of `S`, by what
it passes.

A loop whose steps get on needs no bound beyond the text itself (`Loops.eq_step`); for `many` these
are `many_of_some` and `many_of_none`.
-/

namespace SchemaEnums.Text

namespace Cursor

variable {c c₁ c₂ c' : Cursor} {s t rest : List Char}

/-! ### From one place to another -/

/-- The way from `c` to `c'` leads over `t`. -/
structure Passes (c : Cursor) (t : List Char) (c' : Cursor) : Prop where
  rest  : c.rest = t ++ c'.rest
  moved : c' = c.advance t.length

theorem Passes.refl (c : Cursor) : c.Passes [] c := ⟨rfl, (advance_zero c).symm⟩

theorem Passes.trans (h₁ : c.Passes s c₁) (h₂ : c₁.Passes t c₂) : c.Passes (s ++ t) c₂ := by
  constructor
  · rw [h₁.rest, h₂.rest, List.append_assoc]
  · rw [h₂.moved, h₁.moved, advance_advance, List.length_append]

theorem Passes.position (h : c.Passes t c') : c'.position = c.position.afterAll t := by
  rw [h.moved, advance, h.rest, List.take_left]

theorem Passes.length (h : c.Passes t c') : c.rest.length = t.length + c'.rest.length := by
  rw [h.rest, List.length_append]

theorem Passes.ne_nil (h : c.Passes t c') (hlt : c'.rest.length < c.rest.length) : t ≠ [] := by
  rintro rfl
  have hlength := h.length
  rw [List.length_nil] at hlength
  omega

theorem passes_advance (h : c.rest = t ++ rest) : c.Passes t (c.advance t.length) :=
  ⟨by rw [rest_advance_length h, h], rfl⟩

theorem exists_passes (h : c.rest = t ++ rest) : ∃ c', c.Passes t c' ∧ c'.rest = rest :=
  ⟨_, passes_advance h, rest_advance_length h⟩

theorem Passes.eq_of_nil (h : c.Passes [] c') : c' = c := h.moved.trans (advance_zero c)

theorem Passes.split (h : c.Passes (s ++ t) c') : ∃ c₁, c.Passes s c₁ ∧ c₁.Passes t c' := by
  obtain ⟨c₁, h₁, hrest⟩ := exists_passes (h.rest.trans (List.append_assoc s t _))
  exact ⟨c₁, h₁, hrest, by rw [h₁.moved, advance_advance, h.moved, List.length_append]⟩

theorem Passes.split_cons {x : Char} (h : c.Passes (x :: t) c') :
    ∃ c₁, c.Passes [x] c₁ ∧ c₁.Passes t c' := Passes.split (s := [x]) h

theorem run_passes (c : Cursor) (p : Char → Bool) : c.Passes (c.run p).1 (c.run p).2 :=
  passes_advance (List.takeWhile_append_dropWhile (p := p)).symm

theorem skipWhile_passes (c : Cursor) (p : Char → Bool) :
    c.Passes (c.rest.takeWhile p) (c.skipWhile p) := run_passes c p

theorem skipWhile_stops (c : Cursor) (p : Char → Bool) : Stops p (c.skipWhile p).rest := by
  have h : (c.skipWhile p).rest = c.rest.dropWhile p := by
    have hrest := (skipWhile_passes c p).rest
    nth_rewrite 1 [← List.takeWhile_append_dropWhile (p := p) (l := c.rest)] at hrest
    exact (List.append_cancel_left hrest).symm
  intro x hx
  have hstop := List.head?_dropWhile_not p c.rest
  rw [h, Option.mem_def] at hx
  rwa [hx] at hstop

theorem eat?_iff_passes : c.eat? s = some c' ↔ c.Passes s c' := by
  rw [eat?_eq_some_iff]
  constructor
  · rintro ⟨⟨rest, hrest⟩, rfl⟩
    exact passes_advance hrest
  · intro h
    exact ⟨⟨_, h.rest⟩, h.moved⟩

theorem Passes.eat? (h : c.Passes s c') : c.eat? s = some c' := eat?_iff_passes.mpr h

theorem eat?_passes (h : c.eat? s = some c') : c.Passes s c' := eat?_iff_passes.mp h

end Cursor

namespace Reader

variable {α : Type} {between : Cursor → Cursor} {read : Reader α} {c c' : Cursor} {a : α}

/-! ### What a value is read off -/

theorem Takes.passes {t : List Char} {P : α → Prop} (h : Takes read t c'.rest P)
    (hp : c.Passes t c') : ∃ a, read c = some (a, c') ∧ P a := by
  obtain ⟨a, ha, hP⟩ := h c hp.rest
  exact ⟨a, by rw [ha, ← hp.moved], hP⟩

/-- Whatever the reader yields is spelled by what it passes. -/
def Spells (read : Reader α) (S : Position → α → List Char → Prop) : Prop :=
  ∀ ⦃c : Cursor⦄ ⦃a : α⦄ ⦃c' : Cursor⦄, read c = some (a, c') →
    ∃ t, c.Passes t c' ∧ S c.position a t

/-- With `between` before it, the reader gets on whenever it yields a value. -/
def GetsOn (between : Cursor → Cursor) (read : Reader α) : Prop :=
  ∀ ⦃c : Cursor⦄ ⦃a : α⦄ ⦃c' : Cursor⦄, read (between c) = some (a, c') →
    c'.rest.length < c.rest.length

/-! ### Loops -/

section Loops

variable {β : Type} {loop : List Char → Cursor → β} {step : (Cursor → β) → Cursor → β}

/-- A loop takes one step for each character of its bound.  What a step does depends on how the loop
goes on behind a shorter text only, and at the end of the text it does nothing. -/
structure Loops (loop : List Char → Cursor → β) (step : (Cursor → β) → Cursor → β) : Prop where
  cons  : ∀ (x : Char) (bound : List Char) (c : Cursor), loop (x :: bound) c = step (loop bound) c
  nil   : ∀ (next : Cursor → β) {c : Cursor}, c.rest = [] → step next c = loop [] c
  congr : ∀ {next next' : Cursor → β} {c : Cursor},
    (∀ d : Cursor, d.rest.length < c.rest.length → next d = next' d) → step next c = step next' c

/-- All bounds that are no shorter than the text are alike. -/
theorem Loops.eq_of_length_le (h : Loops loop step) : ∀ {b₁ b₂ : List Char} {c : Cursor},
    c.rest.length ≤ b₁.length → c.rest.length ≤ b₂.length → loop b₁ c = loop b₂ c := by
  have hnil : ∀ {x : Char} {b : List Char} {c : Cursor}, c.rest.length ≤ 0 →
      loop (x :: b) c = loop [] c := fun {x b c} hc => by
    rw [h.cons, h.nil _ (List.length_eq_zero_iff.mp (Nat.le_zero.mp hc))]
  intro b₁
  induction b₁ with
  | nil =>
      intro b₂ c h₁ _
      cases b₂ with
      | nil => rfl
      | cons x b₂ => exact (hnil h₁).symm
  | cons x b₁ ih =>
      intro b₂ c h₁ h₂
      cases b₂ with
      | nil => exact hnil h₂
      | cons y b₂ =>
          rw [List.length_cons] at h₁ h₂
          rw [h.cons, h.cons]
          exact h.congr fun d hd => ih (by omega) (by omega)

/-- **With the text itself as its bound, a loop is what its step makes of it.** -/
theorem Loops.eq_step (h : Loops loop step) (c : Cursor) :
    loop c.rest c = step (fun d => loop d.rest d) c := by
  cases hc : c.rest with
  | nil => rw [h.nil _ hc]
  | cons x rest =>
      rw [h.cons]
      refine h.congr fun d hd => h.eq_of_length_le ?_ (Nat.le_refl _)
      rw [hc, List.length_cons] at hd
      omega

end Loops

/-- One value and, behind it, those that `next` finds. -/
def manyStep (between : Cursor → Cursor) (read : Reader α) (next : Cursor → List α × Cursor)
    (c : Cursor) : List α × Cursor :=
  match read (between c) with
  | none         => ([], c)
  | some (a, c') =>
    let (as, c'') := next c'
    (a :: as, c'')

theorem many_loops (on : GetsOn between read) :
    Loops (manyWithin between read) (manyStep between read) where
  cons  := fun _ _ _ => rfl
  nil   := fun next {c} hc => by
    cases hr : read (between c) with
    | none => simp only [manyStep, hr, manyWithin]
    | some r => exact absurd (on hr) (by simp [hc])
  congr := fun {next next' c} hnext => by
    cases hr : read (between c) with
    | none => simp only [manyStep, hr]
    | some r => simp only [manyStep, hr, hnext r.2 (on hr)]

theorem many_of_none (h : read (between c) = none) : many between read c = ([], c) := by
  rw [many]
  cases c.rest with
  | nil => rfl
  | cons _ bound => simp only [manyWithin, h]

theorem many_of_some (on : GetsOn between read) (h : read (between c) = some (a, c')) :
    many between read c = (a :: (many between read c').1, (many between read c').2) := by
  rw [many, (many_loops on).eq_step c]
  simp only [manyStep, h]
  rfl

/-- What a loop passes is what its values were read off, and behind that no more is found. -/
theorem many_spells (on : GetsOn between read) {S : α → List Char → Prop}
    (h : ∀ ⦃c : Cursor⦄ ⦃a : α⦄ ⦃c' : Cursor⦄, read (between c) = some (a, c') →
      ∃ t, c.Passes t c' ∧ S a t) (c : Cursor) :
    ∃ items : List (α × List Char), (many between read c).1 = items.map Prod.fst ∧
      (∀ i ∈ items, S i.1 i.2) ∧ c.Passes (items.flatMap Prod.snd) (many between read c).2 ∧
      read (between (many between read c).2) = none := by
  induction hn : c.rest.length using Nat.strongRecOn generalizing c with
  | ind n ih =>
      subst hn
      cases hr : read (between c) with
      | none =>
          refine ⟨[], ?_, by simp, ?_, ?_⟩ <;> rw [many_of_none hr]
          · rfl
          · exact .refl c
          · exact hr
      | some ac =>
          obtain ⟨t, ht, hS⟩ := h hr
          obtain ⟨items, hvalues, hitems, hpasses, hnone⟩ := ih _ (on hr) ac.2 rfl
          refine ⟨(ac.1, t) :: items, ?_, List.forall_mem_cons.mpr ⟨hS, hitems⟩, ?_, ?_⟩ <;>
            rw [many_of_some on hr]
          · rw [List.map_cons, hvalues]
          · exact ht.trans hpasses
          · exact hnone

end Reader

end SchemaEnums.Text
