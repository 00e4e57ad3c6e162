import SchemaEnums.Proofs.Schema.Concatenation
import SchemaEnums.Proofs.Schema.Zones

/-!
# Schema — Relined

Changes at the ends of lines.  `Relined z t t'` says that `t'` is `t` with comments added, and
carriage returns added or taken away, where lines end outside of literals; the text begins in the
zone `z`.

A schema so changed spells the same, places included (`SpelledBlocks.relined`).  The change is cut
where the pieces of the schema meet: a piece `Respells` if its part of the changed text is of its
form again, and ends at the same place.  There is one such statement for each form in which a piece
can be spelled.  The cut may not fall between a carriage return and its line feed, so a line break
is cut off whole (`Relined.blank_line`).
-/

namespace SchemaEnums.Schema
open Text Grammar Literal

variable {α β ι : Type}

/-! ### Changes at line ends -/

/-- A comment or nothing. -/
inductive IsNote : List Char → Prop where
  | none : IsNote []
  | comment {t : List Char} (ht : ∀ x ∈ t, isLineBreak x = false) : IsNote ('/' :: '/' :: t)

/-- What may stand before a line feed: a comment or none, and a carriage return or none. -/
inductive IsLineEnd : List Char → Prop where
  | mk {note cr : List Char} (hnote : IsNote note) (hcr : cr = [] ∨ cr = ['\r']) :
      IsLineEnd (note ++ cr)

/-- The second text is the first with the ends of its lines changed, and with a comment at its end
or none. -/
inductive Relined : Zone → List Char → List Char → Prop where
  | ending {z : Zone} {e : List Char} (hz : z.isQuoted = false) (he : IsNote e) : Relined z [] e
  | keep {z : Zone} (x : Char) {t t' : List Char} (h : Relined (z.next x) t t') :
      Relined z (x :: t) (x :: t')
  | line {z : Zone} {e t t' : List Char} (hz : z.isQuoted = false) (he : IsLineEnd e)
      (h : Relined .plain t t') : Relined z ('\n' :: t) (e ++ '\n' :: t')
  | returned {z : Zone} {e t t' : List Char} (hz : z.isQuoted = false) (he : IsLineEnd e)
      (h : Relined .plain t t') : Relined z ('\r' :: '\n' :: t) (e ++ '\n' :: t')

theorem Relined.refl : ∀ {t : List Char} {z : Zone}, Clean z t → Relined z t t := by
  intro t
  induction t with
  | nil => exact fun h => .ending h .none
  | cons x t ih => exact fun h => .keep x (ih h.2)

theorem Relined.behind {s t t' : List Char} : ∀ {z : Zone}, Relined (z.after s) t t' →
    Relined z (s ++ t) (s ++ t') := by
  induction s with
  | nil => exact fun h => h
  | cons x s ih => exact fun h => .keep x (ih h)

/-- A quiet piece stays as it is. -/
theorem Quiet.relined {z z' : Zone} {s t r : List Char} (hs : Quiet z s z')
    (h : Relined z (s ++ t) r) : ∃ r', r = s ++ r' ∧ Relined z' t r' := by
  induction hs generalizing r with
  | nil z => exact ⟨r, rfl, h⟩
  | @cons z z' x s hx _ ih =>
      rw [List.cons_append] at h
      generalize hv : s ++ t = v at h
      have hquoted : isLineBreak x = true → z.isQuoted = false → False := fun hbreak hz => by
        rw [hx hbreak] at hz
        cases hz
      cases h with
      | keep _ h =>
          subst hv
          obtain ⟨r', rfl, hr⟩ := ih h
          exact ⟨r', rfl, hr⟩
      | line hz => exact (hquoted rfl hz).elim
      | returned hz => exact (hquoted rfl hz).elim

theorem IsBlank.note {s e : List Char} (hs : IsBlank s) (he : IsNote e) : IsBlank (s ++ e) := by
  cases he with
  | none => rwa [List.append_nil]
  | comment he =>
      cases hs with
      | spaces hs => exact .comment hs he
      | comment hs ht =>
          rw [List.append_assoc]
          refine .comment hs fun x hx => ?_
          rcases List.mem_append.mp hx with hx | hx
          · exact ht x hx
          · rcases List.mem_cons.mp hx with rfl | hx
            · rfl
            · rcases List.mem_cons.mp hx with rfl | hx
              · rfl
              · exact he x hx

theorem IsBlank.lineFeed_notMem {s : List Char} (hs : IsBlank s) : '\n' ∉ s := by
  have hspaces : ∀ s, IsSpaces s → '\n' ∉ s := fun s hs hmem =>
    absurd (hs '\n' hmem) (by decide)
  cases hs with
  | spaces hs => exact hspaces _ hs
  | comment hs ht =>
      simp only [List.mem_append, List.mem_cons, not_or]
      exact ⟨hspaces _ hs, by decide, by decide, fun hmem => absurd (ht '\n' hmem) (by decide)⟩

/-- Behind a line feed it does not matter how long the line was. -/
theorem IsBlank.afterAll_line {s cr : List Char} (hs : IsBlank s) (hcr : cr = [] ∨ cr = ['\r'])
    (q : Position) : q.afterAll (s ++ (cr ++ ['\n'])) = ⟨q.line + 1, 1⟩ := by
  have hcount : (s ++ cr).count '\n' = 0 := by
    rw [List.count_append, List.count_eq_zero_of_not_mem hs.lineFeed_notMem]
    rcases hcr with rfl | rfl <;> rfl
  rw [← List.append_assoc, Position.afterAll_lineFeed, hcount]

/-- **Where a line break stands behind a blank, there is one behind a blank afterwards.**  The line
break is cut off whole, so the piece `u` behind its first character may lose a line feed. -/
theorem Relined.blank_line {s u v r : List Char} {x : Char} (hs : IsBlank s)
    (hx : isLineBreak x = true) (hv : Stops (· == '\n') v)
    (h : Relined .plain (s ++ x :: (u ++ v)) r) : ∃ t u₁ s' y t' r₁,
      u = t ++ u₁ ∧ (t = [] ∨ t = ['\n']) ∧
      IsBlank s' ∧ isLineBreak y = true ∧ (t' = [] ∨ t' = ['\n']) ∧
      (∀ q : Position, q.afterAll (s' ++ y :: t') = q.afterAll (s ++ x :: t)) ∧
      r = s' ++ y :: (t' ++ r₁) ∧ Relined .plain (u₁ ++ v) r₁ := by
  obtain ⟨z, hz, hquiet⟩ := hs.quiet
  obtain ⟨r, rfl, hr⟩ := hquiet.relined h
  clear h
  -- what stands at the end of the line is a blank with a line break behind it
  have hend : ∀ {e}, IsLineEnd e → ∃ s' y t', IsBlank s' ∧ isLineBreak y = true ∧
      (t' = [] ∨ t' = ['\n']) ∧ (∀ q : Position, q.afterAll (s' ++ y :: t') = ⟨q.line + 1, 1⟩) ∧
      ∀ r₁, s ++ (e ++ '\n' :: r₁) = s' ++ y :: (t' ++ r₁) := by
    rintro _ ⟨hnote, hcr⟩
    have hblank := hs.note hnote
    have hplace := hblank.afterAll_line hcr
    rcases hcr with rfl | rfl
    · exact ⟨_, '\n', [], hblank, rfl, .inl rfl, hplace, fun r₁ => by simp⟩
    · exact ⟨_, '\r', ['\n'], hblank, rfl, .inr rfl, hplace, fun r₁ => by simp⟩
  generalize hw : u ++ v = w at hr
  cases hr with
  | keep _ h =>
      subst hw
      rw [Zone.next_lineBreak hz hx] at h
      exact ⟨[], u, s, x, [], _, rfl, .inl rfl, hs, hx, .inl rfl, fun _ => rfl, rfl, h⟩
  | line _ he h =>
      subst hw
      obtain ⟨s', y, t', hs', hy, ht', hplace, htext⟩ := hend he
      have hplace' := hs.afterAll_line (.inl rfl)
      exact ⟨[], u, s', y, t', _, rfl, .inl rfl, hs', hy, ht',
        fun q => (hplace q).trans (hplace' q).symm, htext _, h⟩
  | returned _ he h =>
      obtain ⟨s', y, t', hs', hy, ht', hplace, htext⟩ := hend he
      have hplace' := hs.afterAll_line (.inr rfl)
      cases u with
      | nil =>
          rw [List.nil_append] at hw
          rw [hw, stops_cons] at hv
          cases hv
      | cons y' u =>
          obtain ⟨rfl, rfl⟩ := List.cons.inj hw
          exact ⟨['\n'], u, s', y, t', _, rfl, .inr rfl, hs', hy, ht',
            fun q => (hplace q).trans (hplace' q).symm, htext _, h⟩

/-- The place behind a line break, which is one character or two. -/
theorem afterAll_break (p : Position) (s v : List Char) (x : Char) :
    (p.afterAll (s ++ [x])).afterAll v = p.afterAll (s ++ x :: v) := by
  rw [← Position.afterAll_append, List.append_assoc, List.singleton_append]

/-! ### Pieces -/

/-- The piece has `P`.  However the text is changed at its line ends, its part where the piece stands
has `P` and ends at the same place, as long as no character of `p` follows; and it is clean if what
follows is. -/
structure Respells (p : Char → Bool) (P : List Char → Prop) (t : List Char) : Prop where
  self    : P t
  clean   : ∀ after, Stops p after → Clean .plain after → Clean .plain (t ++ after)
  relined : ∀ after r, Stops p after → Relined .plain (t ++ after) r → ∃ t' r',
    r = t' ++ r' ∧ P t' ∧ (∀ q : Position, q.afterAll t' = q.afterAll t) ∧ Relined .plain after r'

section Pieces

variable {p q : Char → Bool} {P Q : List Char → Prop} {s t u : List Char} {x : Char}

theorem Respells.imp (h : Respells p P t) (hQ : ∀ t', P t' → Q t') : Respells p Q t where
  self := hQ t h.self
  clean := h.clean
  relined := fun after r hafter hr =>
    let ⟨t', r', ht, hP, hplace, hr'⟩ := h.relined after r hafter hr
    ⟨t', r', ht, hQ t' hP, hplace, hr'⟩

theorem Quiet.respells (h : Quiet .plain t .plain) (hP : P t) : Respells p P t where
  self := hP
  clean := fun _ _ hclean => h.clean hclean
  relined := fun _ _ _ hr =>
    let ⟨r', hr, hr'⟩ := h.relined hr
    ⟨t, r', hr, hP, fun _ => rfl, hr'⟩

/-- The changed piece with where it ends. -/
theorem Respells.placed (h : Respells p P t) :
    Respells p (fun t' => P t' ∧ ∀ q : Position, q.afterAll t' = q.afterAll t) t where
  self := ⟨h.self, fun _ => rfl⟩
  clean := h.clean
  relined := fun after r hafter hr =>
    let ⟨t', r', ht, hP, hplace, hr'⟩ := h.relined after r hafter hr
    ⟨t', r', ht, ⟨hP, hplace⟩, hplace, hr'⟩

/-- One piece behind another, which may have been changed before. -/
theorem Respells.append (h : Respells p P t)
    (hstops : ∀ after, Stops q after → Stops p (u ++ after))
    (h' : ∀ t', P t' → Respells q (fun u' => Q (t' ++ u')) u) : Respells q Q (t ++ u) where
  self := (h' t h.self).self
  clean := fun after hafter hclean => by
    rw [List.append_assoc]
    exact h.clean _ (hstops after hafter) ((h' t h.self).clean after hafter hclean)
  relined := fun after r hafter hr => by
    rw [List.append_assoc] at hr
    obtain ⟨t', r', rfl, hP, hplace, hr'⟩ := h.relined _ r (hstops after hafter) hr
    obtain ⟨u', r'', rfl, hQ, hplace', hr''⟩ := (h' t' hP).relined after r' hafter hr'
    refine ⟨t' ++ u', r'', (List.append_assoc ..).symm, hQ, fun q => ?_, hr''⟩
    rw [Position.afterAll_append, Position.afterAll_append, hplace, hplace']

/-- Behind a piece that nothing can continue, any other. -/
theorem Respells.append_anyhow (h : Respells noChar P t)
    (h' : ∀ t', P t' → Respells q (fun u' => Q (t' ++ u')) u) : Respells q Q (t ++ u) :=
  h.append (fun _ _ => stops_noChar _) h'

/-- A piece behind a quiet one. -/
theorem Respells.behind (hs : Quiet .plain s .plain) (h : Respells q (fun u' => Q (s ++ u')) u) :
    Respells q Q (s ++ u) :=
  (hs.respells (P := (· = s)) rfl).append_anyhow fun _ ht => ht ▸ h

/-- A piece behind a line break.  The line break is changed whole, so the piece may lose a line
feed. -/
theorem Respells.behind_line (hs : IsBlank s) (hx : isLineBreak x = true) (hp : p '\n' = true)
    (hu : ∀ {t u₁ s' y t'}, u = t ++ u₁ → (t = [] ∨ t = ['\n']) → IsBlank s' →
      isLineBreak y = true → (t' = [] ∨ t' = ['\n']) →
      (∀ q : Position, q.afterAll (s' ++ y :: t') = q.afterAll (s ++ x :: t)) →
        Respells p (fun u' => P (s' ++ y :: (t' ++ u'))) u₁) : Respells p P (s ++ x :: u) where
  self := (hu rfl (.inl rfl) hs hx (.inl rfl) fun _ => rfl).self
  clean := fun after hafter hclean => by
    have hunchanged := hu rfl (.inl rfl) hs hx (.inl rfl) fun _ => rfl
    rw [List.append_assoc]
    exact hs.clean_line hx (hunchanged.clean after hafter hclean)
  relined := fun after r hafter hr => by
    have hlineFeed : Stops (· == '\n') after := hafter.mono fun y hy => by rwa [beq_iff_eq.mp hy]
    rw [List.append_assoc] at hr
    obtain ⟨t, u₁, s', y, t', r', rfl, ht, hs', hy, ht', hplace, rfl, hr'⟩ :=
      Relined.blank_line hs hx hlineFeed hr
    obtain ⟨u', r'', rfl, hQ, hplace', hr''⟩ :=
      (hu rfl ht hs' hy ht' hplace).relined after r' hafter hr'
    refine ⟨s' ++ y :: (t' ++ u'), r'', by simp, hQ, fun q => ?_, hr''⟩
    have hnew : q.afterAll (s' ++ y :: (t' ++ u')) = (q.afterAll (s' ++ y :: t')).afterAll u' := by
      rw [← Position.afterAll_append, List.append_assoc, List.cons_append]
    have hold : q.afterAll (s ++ x :: (t ++ u₁)) = (q.afterAll (s ++ x :: t)).afterAll u₁ := by
      rw [← Position.afterAll_append, List.append_assoc, List.cons_append]
    rw [hnew, hold, hplace, hplace']

end Pieces

/-! ### Gaps and lists -/

/-- Where a line feed stands first, no blank does. -/
theorem IsBlank.eq_nil_of_lineFeed {s t u : List Char} {x : Char} (hs : IsBlank s)
    (h : '\n' :: t = s ++ x :: u) : s = [] ∧ x = '\n' ∧ u = t := by
  rcases hs.head with rfl | ⟨y, w, rfl, hy⟩
  · obtain ⟨rfl, rfl⟩ := List.cons.inj h
    exact ⟨rfl, rfl, rfl⟩
  · obtain ⟨rfl, -⟩ := List.cons.inj h
    exact absurd hy (by decide)

theorem IsGap.of_lineFeed {g : List Char} (h : IsGap ('\n' :: g)) : IsGap g := by
  generalize hv : '\n' :: g = v at h
  cases h with
  | spaces h =>
      subst hv
      exact absurd (h '\n' (by simp)) (by decide)
  | line hs hx hg =>
      obtain ⟨-, -, rfl⟩ := hs.eq_nil_of_lineFeed hv
      exact hg

theorem IsGap.respells {g : List Char} (h : IsGap g) : Respells (· == '\n') IsGap g := by
  -- by length, since behind a carriage return the gap may lose its first line feed
  induction hn : g.length using Nat.strongRecOn generalizing g with
  | ind n ih =>
      subst hn
      cases h with
      | spaces hs => exact hs.quiet.respells (.spaces hs)
      | @line s g x hs hx hg =>
          refine .behind_line hs hx rfl fun {t u₁ s' y t'} hu ht hs' hy ht' _ => ?_
          subst hu
          have hlength : u₁.length < (s ++ x :: (t ++ u₁)).length := by
            simp only [List.length_append, List.length_cons]
            omega
          have hrest : IsGap u₁ := by
            rcases ht with rfl | rfl
            · exact hg
            · exact hg.of_lineFeed
          exact (ih _ hlength hrest rfl).imp fun _ hg' => .line hs' hy (hg'.behind_break ht')

/-- The piece begins, and not with a line feed. -/
def Begins (t : List Char) : Prop := ∃ x w, t = x :: w ∧ x ≠ '\n'

theorem Begins.stops {t : List Char} (h : Begins t) (after : List Char) :
    Stops (· == '\n') (t ++ after) := by
  obtain ⟨x, w, rfl, hx⟩ := h
  exact .cons (by simpa using hx)

theorem Begins.append {t : List Char} (h : Begins t) (u : List Char) : Begins (t ++ u) := by
  obtain ⟨x, w, rfl, hx⟩ := h
  exact ⟨x, w ++ u, rfl, hx⟩

/-- Behind a gap anything that does not begin with a line feed. -/
theorem IsGap.before {p : Char → Bool} {P : List Char → Prop} {g u : List Char} (hg : IsGap g)
    (hu : Begins u) (h : ∀ g', IsGap g' → Respells p (fun u' => P (g' ++ u')) u) :
    Respells p P (g ++ u) := hg.respells.append (fun _ _ => hu.stops _) h

section Lists

variable {opening closing : Char} {text : ι → List Char} {f : ι → β} {S : ι → Prop}
  {items : List ι} {t u : List Char}

/-- Items with the same values, each of them with `S`, are set out in the given form. -/
def Relisted (f : ι → β) (S : ι → Prop) (items : List ι) (form : List ι → Prop) : Prop :=
  ∃ items', items'.map f = items.map f ∧ (∀ i ∈ items', S i) ∧ form items'

theorem Relisted.cons {i i' : ι} {form form' : List ι → Prop} (hf : f i' = f i) (hS : S i')
    (h : Relisted f S items form) (hform : ∀ items', form items' → form' (i' :: items')) :
    Relisted f S (i :: items) form' := by
  obtain ⟨items', hfs, hSs, hitems⟩ := h
  exact ⟨i' :: items', by rw [List.map_cons, List.map_cons, hf, hfs],
    List.forall_mem_cons.mpr ⟨hS, hSs⟩, hform items' hitems⟩

/-- The item is spelled, whatever its line ends. -/
def ItemRespells (text : ι → List Char) (f : ι → β) (S : ι → Prop) (i : ι) : Prop :=
  Begins (text i) ∧ Respells noChar (fun v => ∃ i', f i' = f i ∧ S i' ∧ v = text i') (text i)

theorem quiet_closing (hclosing : closing = ')' ∨ closing = ']') :
    Quiet .plain [closing] .plain := by
  rcases hclosing with rfl | rfl <;> exact quiet_mark rfl

theorem begins_closing (hclosing : closing = ')' ∨ closing = ']') : Begins [closing] := by
  rcases hclosing with rfl | rfl <;> exact ⟨_, _, rfl, by decide⟩

/-- The tail of a list stays one, of items with the same values. -/
theorem ListTail.respells (hclosing : closing = ')' ∨ closing = ']')
    (hitems : ∀ i ∈ items, ItemRespells text f S i)
    (h : ListTail closing (items.map text) u) : Respells noChar
      (fun w => Relisted f S items fun items' => ListTail closing (items'.map text) w) u := by
  have hcomma : Quiet .plain [','] .plain := quiet_mark rfl
  have hclose := quiet_closing hclosing
  have hbegins := begins_closing hclosing
  have hbegins' : ∀ u, Begins (',' :: u) := fun u => ⟨',', u, rfl, by decide⟩
  generalize hts : items.map text = ts at h
  induction h generalizing items with
  | close hg =>
      obtain rfl := List.map_eq_nil_iff.mp hts
      exact hg.before hbegins fun g' hg' => hclose.respells ⟨[], rfl, by simp, .close hg'⟩
  | comma hg hg₁ =>
      obtain rfl := List.map_eq_nil_iff.mp hts
      exact hg.before (hbegins' _) fun g' hg' => .behind hcomma (hg₁.before hbegins
        fun g₁' hg₁' => hclose.respells ⟨[], rfl, by simp, .comma hg' hg₁'⟩)
  | @item g g₁ v u ts hg hg₁ h ih =>
      obtain ⟨i, items, rfl, rfl, rfl⟩ := List.map_eq_cons_iff.mp hts
      obtain ⟨⟨hi, hrespells⟩, hitems⟩ := List.forall_mem_cons.mp hitems
      refine hg.before (hbegins' _) fun g' hg' => .behind hcomma (hg₁.before (hi.append u)
        fun g₁' hg₁' => hrespells.append_anyhow ?_)
      rintro _ ⟨i', hf, hS, rfl⟩
      exact (ih hitems rfl).imp fun u' hu' => hu'.cons hf hS fun _ => .item hg' hg₁'

theorem Listed.respells (hopening : isMark opening = true)
    (hclosing : closing = ')' ∨ closing = ']') (hitems : ∀ i ∈ items, ItemRespells text f S i)
    (h : Listed opening closing (items.map text) t) : Respells noChar
      (fun w => Relisted f S items fun items' => Listed opening closing (items'.map text) w) t := by
  have hopen : Quiet .plain [opening] .plain := quiet_mark hopening
  generalize hts : items.map text = ts at h
  cases h with
  | empty hg =>
      obtain rfl := List.map_eq_nil_iff.mp hts
      exact .behind hopen (hg.before (begins_closing hclosing) fun g' hg' =>
        (quiet_closing hclosing).respells ⟨[], rfl, by simp, .empty hg'⟩)
  | @items g v u ts hg h =>
      obtain ⟨i, items, rfl, rfl, rfl⟩ := List.map_eq_cons_iff.mp hts
      obtain ⟨⟨hi, hrespells⟩, hitems⟩ := List.forall_mem_cons.mp hitems
      refine .behind hopen (hg.before (hi.append u) fun g' hg' => hrespells.append_anyhow ?_)
      rintro _ ⟨i', hf, hS, rfl⟩
      exact (h.respells hclosing hitems).imp fun u' hu' => hu'.cons hf hS fun _ => .items hg'

end Lists

end SchemaEnums.Schema
